import UringWs.Program.Sys
import UringWs.Foundation.RingWindow

/-! # The submission ring

Entries are handed out at the local tail, which may run at most one ring length
ahead of the kernel's head. The builders fill in a handed-out entry; what they
leave alone keeps the value the slot had, apart from the fields that
initialisation clears.
-/
namespace UringWs
open Checked RingWindow

structure IoUringSq where
  khead : UInt32
  sqeTail : UInt32
  ringMask : UInt32
  ringEntries : UInt32
  sqes : ℕ → IoUringSqe

def ioUringInitializeSqe (sqe : IoUringSqe) : IoUringSqe :=
  { sqe with flags := 0, ioprio := 0, opFlags := 0, bufGroup := 0, personality := 0,
             fileIndex := 0, addr3 := 0, pad2 := 0 }

/-- The index of the slot handed out, or the error, with the ring after the call. -/
def ioUringGetSqe (sq : IoUringSq) : Except String ℕ × IoUringSq :=
  let next := sq.sqeTail + 1
  let kernalHead := sq.khead
  if next - kernalHead ≤ sq.ringEntries then
    let idx := ((sq.sqeTail &&& sq.ringMask) <<< (0 : UInt32)).toNat
    let sq := { sq with sqeTail := next }
    (.ok idx, { sq with sqes := Function.update sq.sqes idx (ioUringInitializeSqe (sq.sqes idx)) })
  else (.error "sq ring entries overflow", sq)

def IoUringSq.modifySqe (sq : IoUringSq) (idx : ℕ) (f : IoUringSqe → IoUringSqe) : IoUringSq :=
  { sq with sqes := Function.update sq.sqes idx (f (sq.sqes idx)) }

def ioUringSqeSetData (data : UInt64) (sqe : IoUringSqe) : IoUringSqe :=
  { sqe with userData := data }

namespace Op

def readAt (fd : Int32) (ptr : ℕ) (len : UInt32) (offset : UInt64) (sqe : IoUringSqe) :
    IoUringSqe :=
  { sqe with opcode := ioringOpRead, fd, off := offset, addr := ptr, len }

def recv (fd : Int32) (ptr : ℕ) (len flags : UInt32) (sqe : IoUringSqe) : IoUringSqe :=
  { sqe with opcode := ioringOpRecv, fd, addr := ptr, opFlags := flags, len }

def writeAt (fd : Int32) (ptr : ℕ) (len : UInt32) (offset : UInt64) (sqe : IoUringSqe) :
    IoUringSqe :=
  { sqe with opcode := ioringOpWrite, fd, off := offset, addr := ptr, len }

def send (fd : Int32) (ptr : ℕ) (len flags : UInt32) (sqe : IoUringSqe) : IoUringSqe :=
  { sqe with opcode := ioringOpSend, fd, addr := ptr, opFlags := flags, len }

def multishotRecv (fd : Int32) (flags : UInt32) (bufGroup : UInt16) (sqe : IoUringSqe) :
    Except Fault IoUringSqe := do
  ensure (flags &&& msgWaitall = 0) .waitallMultishot
  .ok { sqe with opcode := ioringOpRecv, fd, opFlags := flags, ioprio := ioringRecvMultishot,
                 bufGroup, flags := sqe.flags ||| iosqeBufferSelect }

end Op

def getSqeUnwrap (sq : IoUringSq) : Except Fault (ℕ × IoUringSq) :=
  match ioUringGetSqe sq with
  | (.ok idx, sq) => .ok (idx, sq)
  | (.error _, _) => .error .sqOverflow

def prepSend (sq : IoUringSq) (fd : Int32) (ptr len : ℕ) (flags : UInt32) :
    Except Fault (ℕ × IoUringSq) := do
  let (idx, sq) ← getSqeUnwrap sq
  .ok (idx, sq.modifySqe idx (Op.send fd ptr (UInt32.ofNat len) flags))

namespace IoUringSq

/-- Entries handed out and not yet consumed by the kernel. -/
def count (sq : IoUringSq) : ℕ := (sq.sqeTail - sq.khead).toNat

def queue (sq : IoUringSq) : List IoUringSqe :=
  window sq.sqes sq.ringEntries.toNat sq.khead.toNat sq.count

def kernelTake (sq : IoUringSq) (n : ℕ) : IoUringSq :=
  { sq with khead := sq.khead + UInt32.ofNat n }

/-- A ring of a power-of-two size, never more than full. -/
structure Wf (sq : IoUringSq) : Prop where
  ring : MaskedRing sq.ringEntries sq.ringMask
  count_le : sq.count ≤ sq.ringEntries.toNat

theorem count_eq_span (sq : IoUringSq) :
    sq.count = span (2 ^ 32) sq.khead.toNat sq.sqeTail.toNat := UInt32.toNat_sub ..

@[simp] theorem queue_length (sq : IoUringSq) : sq.queue.length = sq.count := window_length ..

variable {sq : IoUringSq}

theorem Wf.slot (h : sq.Wf) : ((sq.sqeTail &&& sq.ringMask) <<< (0 : UInt32)).toNat =
    (sq.khead.toNat + sq.count) % sq.ringEntries.toNat := by
  rw [count_eq_span, head_add_span h.ring.dvd sq.khead.toNat_lt, UInt32.shiftLeft_zero,
    h.ring.and_mask]

theorem count_succ (h : sq.Wf) : (sq.sqeTail + 1 - sq.khead).toNat = sq.count + 1 := by
  have hle := h.count_le
  have hsize := h.ring.entries_le
  rw [count_eq_span] at *
  rw [UInt32.toNat_sub, UInt32.toNat_add]
  exact span_tail (n := 1) (by omega)

theorem getSqe_full (h : sq.Wf) (hf : sq.count = sq.ringEntries.toNat) :
    ioUringGetSqe sq = (.error "sq ring entries overflow", sq) := by
  apply if_neg
  rw [UInt32.le_iff_toNat_le, count_succ h]
  omega

/-- On a ring with room the slot after the window is handed out, initialised. -/
theorem getSqe_room (h : sq.Wf) (hr : sq.count < sq.ringEntries.toNat) :
    ioUringGetSqe sq =
      let idx := (sq.khead.toNat + sq.count) % sq.ringEntries.toNat
      (.ok idx, { sq with
        sqeTail := sq.sqeTail + 1
        sqes := Function.update sq.sqes idx (ioUringInitializeSqe (sq.sqes idx)) }) := by
  have hle : sq.sqeTail + 1 - sq.khead ≤ sq.ringEntries := by
    rw [UInt32.le_iff_toNat_le, count_succ h]
    omega
  simp only [ioUringGetSqe, if_pos hle, h.slot]

/-- Preparing an entry enqueues it: the queue after a successful hand-out and a
write to the handed-out slot is the old one with the built entry at its end. -/
theorem prepare_spec {sq' : IoUringSq} {idx : ℕ} (h : sq.Wf)
    (hg : getSqeUnwrap sq = .ok (idx, sq')) (f : IoUringSqe → IoUringSqe) :
    (sq'.modifySqe idx f).Wf ∧ sq.count < sq.ringEntries.toNat ∧
      (sq'.modifySqe idx f).queue = sq.queue ++ [f (ioUringInitializeSqe (sq.sqes idx))] ∧
      sq'.ringEntries = sq.ringEntries := by
  rcases Nat.lt_or_ge sq.count sq.ringEntries.toNat with hr | hr
  · simp only [getSqeUnwrap, getSqe_room h hr, Except.ok.injEq, Prod.mk.injEq] at hg
    obtain ⟨rfl, rfl⟩ := hg
    have hc := count_succ h
    refine ⟨⟨h.ring, ?_⟩, hr, ?_, rfl⟩
    · change (sq.sqeTail + 1 - sq.khead).toNat ≤ sq.ringEntries.toNat
      rw [hc]
      exact hr
    · simp only [queue, modifySqe, count, hc, Function.update_self, Function.update_idem]
      rw [show (sq.sqeTail - sq.khead).toNat = sq.count from rfl, window_push hr]
  · have hf := getSqe_full h (Nat.le_antisymm h.count_le hr)
    simp [getSqeUnwrap, hf] at hg

theorem kernelTake_khead (h : sq.Wf) {n : ℕ} (hn : n ≤ sq.count) :
    (sq.kernelTake n).khead.toNat = (sq.khead.toNat + n) % 2 ^ 32 := by
  have hle := h.count_le
  have hsize := h.ring.entries_le
  rw [kernelTake, UInt32.toNat_add, UInt32.toNat_ofNat_of_lt' (show n < 4294967296 by omega)]

theorem kernelTake_spec (h : sq.Wf) {n : ℕ} (hn : n ≤ sq.count) :
    (sq.kernelTake n).Wf ∧ (sq.kernelTake n).count = sq.count - n ∧
      (sq.kernelTake n).queue = sq.queue.drop n := by
  have hc : (sq.kernelTake n).count = sq.count - n := by
    rw [count_eq_span, count_eq_span, kernelTake_khead h hn]
    exact span_head sq.khead.toNat_lt sq.sqeTail.toNat_lt (count_eq_span sq ▸ hn)
  refine ⟨⟨h.ring, ?_⟩, hc, ?_⟩
  · rw [hc]
    exact (Nat.sub_le ..).trans h.count_le
  · rw [queue, hc, kernelTake_khead h hn]
    exact (window_wrap h.ring.dvd ..).trans (window_drop hn)

end IoUringSq
end UringWs
