import UringWs.Program.BufRing
import UringWs.Program.UserData

/-! # Completions

A completion is built from a posted entry, together with the kernel buffer the
entry names, and must have given that buffer away by the time it is dropped. The
entry behind the pointer is kept by value; that no slot changes under a live
completion is proved with the completion ring.
-/
namespace UringWs
open Checked

structure Completion where
  cqe : IoUringCqe
  kernelBuf : Option KernelBuffer
  userData : UserData
deriving DecidableEq, Repr

namespace IoUringCqe

def bufferId (cqe : IoUringCqe) : UInt16 := (cqe.flags >>> ioringCqeBufferShift).toUInt16

def hasBuffer (cqe : IoUringCqe) : Prop := cqe.flags &&& ioringCqeFBuffer ≠ 0
def hasMore (cqe : IoUringCqe) : Prop := cqe.flags &&& ioringCqeFMore ≠ 0
def hasBufMore (cqe : IoUringCqe) : Prop := cqe.flags &&& ioringCqeFBufMore ≠ 0

instance (cqe : IoUringCqe) : Decidable cqe.hasBuffer := inferInstanceAs (Decidable (_ ≠ _))
instance (cqe : IoUringCqe) : Decidable cqe.hasMore := inferInstanceAs (Decidable (_ ≠ _))
instance (cqe : IoUringCqe) : Decidable cqe.hasBufMore := inferInstanceAs (Decidable (_ ≠ _))

end IoUringCqe

namespace Completion

def fromRawEvent (pool : BufRingPool) (mem : Memory) (ptr : Option IoUringCqe) :
    Except Fault Completion := do
  let cqe ← unwrap ptr .nullCqe
  let userData := UserData.fromPacked cqe.userData
  ensure (¬ cqe.res < 0) (.cqeError cqe.res.toInt.natAbs)
  ensure (¬ cqe.hasBufMore) .unhandledBufMore
  if cqe.hasBuffer then
    let dataLen := resAsUsize cqe.res
    ensure (0 < dataLen) .emptyData
    let bufferId := cqe.bufferId
    -- the buffer group id is taken from the user data
    let bufferGroupId := userData.owner
    let kernelBuf ← pool.getReadBuf mem bufferGroupId bufferId dataLen
    ensure (kernelBuf.bid = bufferId) .kernelBufBid
    .ok { cqe, kernelBuf := some kernelBuf, userData }
  else .ok { cqe, kernelBuf := none, userData }

/-- The destructor's assertion. -/
def drop (c : Completion) : Except Fault Unit := ensure (c.kernelBuf = none) .kernelBufNotConsumed

theorem fromRawEvent_noBuffer {pool : BufRingPool} {mem : Memory} {cqe : IoUringCqe}
    {c : Completion} (hb : ¬ cqe.hasBuffer) :
    fromRawEvent pool mem (some cqe) = .ok c ↔
      ¬ cqe.res < 0 ∧ ¬ cqe.hasBufMore ∧ c = ⟨cqe, none, .fromPacked cqe.userData⟩ := by
  simp only [fromRawEvent, unwrap_some, ok_bind, bind_eq_ok, ensure_eq_ok, exists_const, if_neg hb,
    Except.ok.injEq, eq_comm (b := c)]

theorem fromRawEvent_buffer {pool : BufRingPool} {mem : Memory} {cqe : IoUringCqe}
    {c : Completion} (hb : cqe.hasBuffer) :
    fromRawEvent pool mem (some cqe) = .ok c ↔
      ¬ cqe.res < 0 ∧ ¬ cqe.hasBufMore ∧ 0 < resAsUsize cqe.res ∧
      ∃ kb, pool.getReadBuf mem (UserData.fromPacked cqe.userData).owner cqe.bufferId
          (resAsUsize cqe.res) = .ok kb ∧
        c = ⟨cqe, some kb, .fromPacked cqe.userData⟩ := by
  simp only [fromRawEvent, unwrap_some, ok_bind, bind_eq_ok, ensure_eq_ok, exists_const, if_pos hb,
    Except.ok.injEq, eq_comm (b := c)]
  refine and_congr_right fun _ => and_congr_right fun _ => and_congr_right fun _ => ?_
  refine exists_congr fun kb => and_congr_right fun hkb => ?_
  obtain ⟨p, _, _, hbid, _, rfl⟩ := BufRingPool.getReadBuf_eq_ok.mp hkb
  exact and_iff_right hbid.symm

theorem fromRawEvent_cqe {pool : BufRingPool} {mem : Memory} {cqe : IoUringCqe} {c : Completion}
    (h : fromRawEvent pool mem (some cqe) = .ok c) :
    c.cqe = cqe ∧ c.userData = .fromPacked cqe.userData := by
  by_cases hb : cqe.hasBuffer
  · obtain ⟨_, _, _, _, _, rfl⟩ := (fromRawEvent_buffer hb).mp h
    exact ⟨rfl, rfl⟩
  · obtain ⟨_, _, rfl⟩ := (fromRawEvent_noBuffer hb).mp h
    exact ⟨rfl, rfl⟩

theorem fromRawEvent_kernelBuf {pool : BufRingPool} {mem : Memory} {cqe : IoUringCqe}
    {c : Completion} {kb : KernelBuffer} (h : fromRawEvent pool mem (some cqe) = .ok c)
    (hkb : c.kernelBuf = some kb) :
    pool.getReadBuf mem (UserData.fromPacked cqe.userData).owner cqe.bufferId
      (resAsUsize cqe.res) = .ok kb := by
  by_cases hb : cqe.hasBuffer
  · obtain ⟨-, -, -, kb', hget, rfl⟩ := (fromRawEvent_buffer hb).mp h
    obtain rfl := Option.some.inj hkb
    exact hget
  · obtain ⟨-, -, rfl⟩ := (fromRawEvent_noBuffer hb).mp h
    simp at hkb

end Completion
end UringWs
