import UringWs.System.SlotHistory
import UringWs.System.Progress

/-! # Completing a write

The length of a written buffer is cast to 32 bits for the send's entry, reported
back in a signed 32-bit result, and compared with the length of the bytes the
stream kept.
-/
namespace UringWs
open Checked EventLoop

/-- The entry asks for all bytes of the write, and the completion that reports all
the bytes asked for is accepted and takes the write out of the table. -/
structure CanComplete (n : ℕ) (sqe : IoUringSqe) (s : TcpStream) (mem : Memory) : Prop where
  asks : sqe.len.toNat = n
  accepted : ∀ pool cqe, cqe.userData = sqe.userData → cqe.res.toUInt32 = sqe.len →
    ¬ cqe.hasBuffer → ¬ cqe.hasBufMore →
    ∃ c s' mem', Completion.fromRawEvent pool mem (some cqe) = .ok c ∧
      s.onCompletion mem c = .ok (s', mem') ∧
      s'.pendingSent = s.pendingSent.erase (.fromPacked sqe.userData) ∧
      s'.pendingSent.lookup (.fromPacked sqe.userData) = none

/-- A signed result whose bits are a byte count is negative from 2^31 on. -/
theorem toInt_of_toUInt32 {res : Int32} {len : UInt32} (h : res.toUInt32 = len) :
    res.toInt = if len.toNat < 2 ^ 31 then (len.toNat : ℤ) else len.toNat - 2 ^ 32 := by
  have hbits : res.toInt = len.toBitVec.toInt := by rw [← h]; rfl
  rw [hbits, BitVec.toInt_eq_toNat_cond, UInt32.toNat_toBitVec]
  split <;> split <;> omega

/-- The entry a write leaves in the slot it was given. -/
theorem TcpStream.write_slot {s s' : TcpStream} {mem mem' : Memory} {sq sq' : IoUringSq}
    {ptr : ℕ} {buf : List UInt8} {r : Except IoError ℕ} (hn : s.nonblocking = true)
    (h : s.write mem sq ptr buf = .ok (r, s', mem', sq')) :
    sq'.sqes sq.nextSlot = sendSqe s.asRawFd s.sendKey ⟨ptr, buf⟩ (sq.sqes sq.nextSlot) := by
  obtain ⟨-, -, -, idx, hprep⟩ := write_prepares hn h
  have hleft : preparedSqe sq (.send s.asRawFd ptr (UInt32.ofNat buf.length) msgWaitall)
      s.sendKey.asU64 = .ok (idx, sq'.sqes idx) := by
    rw [preparedSqe, hprep, ok_bind]
  by_cases hroom : sq.HasRoom
  · rw [preparedSqe_room hroom] at hleft
    obtain ⟨rfl, hsqe⟩ := Prod.mk.inj (Except.ok.inj hleft)
    exact hsqe.symm
  · rw [preparedSqe_full hroom] at hleft
    cases hleft

theorem written_lookup (s : TcpStream) (ptr : ℕ) (buf : List UInt8) :
    (s.written ptr buf).pendingSent.lookup s.sendKey = some ⟨ptr, buf⟩ :=
  Finmap.lookup_insert _

section Completion
variable {s : TcpStream} {mem : Memory} {ptr : ℕ} {buf : List UInt8} {pool : BufRingPool}
  {cqe : IoUringCqe}

/-- The handler accepts a result equal to the length of the kept bytes, and no other. -/
theorem written_onCompletion (hu : cqe.userData = s.sendKey.asU64) {r : TcpStream × Memory} :
    (s.written ptr buf).onCompletion mem ⟨cqe, none, .fromPacked cqe.userData⟩ = .ok r ↔
      cqe.res ≠ 0 ∧ buf.length = resAsUsize cqe.res ∧
      r = ({ s.written ptr buf with
        pendingSent := (s.written ptr buf).pendingSent.erase s.sendKey }, mem.free ptr) := by
  have hkey : UserData.fromPacked cqe.userData = s.sendKey := congrArg UserData.fromPacked hu
  have hlookup : (s.written ptr buf).pendingSent.lookup (.fromPacked cqe.userData) =
      some ⟨ptr, buf⟩ := by
    rw [hkey]
    exact written_lookup s ptr buf
  have hparts : UserData.fromPacked cqe.userData =
      .fromParts Event.send.toU8 (s.written ptr buf).ownerId s.sendId := hkey
  rw [TcpStream.onCompletion_fromParts hparts, TcpStream.arm, TcpStream.onSend_eq_ok, hlookup]
  simp only [Option.some.injEq, exists_eq_left', true_and, hkey]

theorem accepted_of_lt (hu : cqe.userData = s.sendKey.asU64) (hpos : 0 < buf.length)
    (hlt : buf.length < 2 ^ 31) (hres : cqe.res.toUInt32 = UInt32.ofNat buf.length)
    (hbuffer : ¬ cqe.hasBuffer) (hmore : ¬ cqe.hasBufMore) :
    Completion.fromRawEvent pool mem (some cqe) = .ok ⟨cqe, none, .fromPacked cqe.userData⟩ ∧
      (s.written ptr buf).onCompletion mem ⟨cqe, none, .fromPacked cqe.userData⟩ =
        .ok ({ s.written ptr buf with
          pendingSent := (s.written ptr buf).pendingSent.erase s.sendKey }, mem.free ptr) := by
  have hlen : (UInt32.ofNat buf.length).toNat = buf.length :=
    UInt32.toNat_ofNat_of_lt' (show buf.length < 4294967296 by omega)
  have hint : cqe.res.toInt = buf.length := by
    rw [toInt_of_toUInt32 hres, hlen, if_pos hlt]
  have hsize : buf.length = resAsUsize cqe.res := by
    rw [resAsUsize_of_nonneg (by omega), hint, Int.toNat_natCast]
  have hneg : ¬ cqe.res < 0 := by
    rw [Int32.lt_iff_toInt_lt, hint, Int32.toInt_zero]
    omega
  have hne : cqe.res ≠ 0 := by
    rintro h0
    rw [h0, Int32.toInt_zero] at hint
    omega
  exact ⟨(Completion.fromRawEvent_noBuffer hbuffer).mpr ⟨hneg, hmore, rfl⟩,
    (written_onCompletion hu).mpr ⟨hne, hsize, rfl⟩⟩

/-- From 2^31 on the result reads as an error. -/
theorem not_accepted_of_le {len : UInt32} (hle : 2 ^ 31 ≤ len.toNat)
    (hres : cqe.res.toUInt32 = len) {c : Completion} :
    Completion.fromRawEvent pool mem (some cqe) ≠ .ok c := by
  have hneg : cqe.res < 0 := by
    have hlt := len.toNat_lt
    rw [Int32.lt_iff_toInt_lt, toInt_of_toUInt32 hres, if_neg (Nat.not_lt.mpr hle),
      Int32.toInt_zero]
    omega
  intro h
  by_cases hb : cqe.hasBuffer
  · exact ((Completion.fromRawEvent_buffer hb).mp h).1 hneg
  · exact ((Completion.fromRawEvent_noBuffer hb).mp h).1 hneg

end Completion

/-- An accepted write can complete exactly when it is shorter than 2^31 bytes. -/
theorem write_completes_iff {s s' : TcpStream} {mem mem' : Memory} {sq sq' : IoUringSq} {ptr n : ℕ}
    {buf : List UInt8} (hn : s.nonblocking = true)
    (h : s.write mem sq ptr buf = .ok (.ok n, s', mem', sq')) :
    CanComplete n (sq'.sqes sq.nextSlot) s' mem' ↔ buf.length < 2 ^ 31 := by
  obtain ⟨hr, hpos, rfl, -⟩ := TcpStream.write_prepares hn h
  obtain rfl : n = buf.length := Except.ok.inj hr
  rw [TcpStream.write_slot hn h]
  have hlen : (TcpStream.sendSqe s.asRawFd s.sendKey ⟨ptr, buf⟩ (sq.sqes sq.nextSlot)).len =
      UInt32.ofNat buf.length := rfl
  constructor
  · intro hc
    have hasks := hc.asks
    by_contra hge
    have hbuffer : ¬ (⟨s.sendKey.asU64, (UInt32.ofNat buf.length).toInt32, 0⟩ :
        IoUringCqe).hasBuffer := by simp [IoUringCqe.hasBuffer]
    have hmore : ¬ (⟨s.sendKey.asU64, (UInt32.ofNat buf.length).toInt32, 0⟩ :
        IoUringCqe).hasBufMore := by simp [IoUringCqe.hasBufMore]
    obtain ⟨c, -, -, hraw, -⟩ := hc.accepted .empty _ rfl rfl hbuffer hmore
    have hle : 2 ^ 31 ≤ (UInt32.ofNat buf.length).toNat := by
      rw [← hlen, hasks]
      omega
    exact not_accepted_of_le hle rfl hraw
  · intro hlt
    refine ⟨UInt32.toNat_ofNat_of_lt' (show buf.length < 4294967296 by omega), ?_⟩
    intro pool cqe hu hres hbuffer hmore
    obtain ⟨hraw, hdone⟩ := accepted_of_lt hu hpos hlt hres hbuffer hmore
    exact ⟨_, _, _, hraw, hdone, rfl, Finmap.lookup_erase _ _⟩

theorem write_completes_short : ∃ s mem sq,
    (freshStream idleSocket 0 1200).write start.mem start.sq 0 [7] = .ok (.ok 1, s, mem, sq) ∧
      CanComplete 1 (sq.sqes start.sq.nextSlot) s mem := by
  obtain ⟨sq, h⟩ : ∃ sq, (freshStream idleSocket 0 1200).write start.mem start.sq 0 [7] =
      .ok (_, _, _, sq) :=
    TcpStream.write_isOk start.mem 0 rfl start_init.sq (by decide) (by decide)
  exact ⟨_, _, sq, h, (write_completes_iff rfl h).mpr (by decide)⟩

/-- A buffer of 2^32 + 1 bytes is accepted whole, its entry asks for one byte, and
the completion that reports this byte is taken for a short send. -/
theorem write_truncated : ∃ s mem sq,
    (freshStream idleSocket 0 1200).write start.mem start.sq 0 (List.replicate (2 ^ 32 + 1) 0) =
      .ok (.ok (2 ^ 32 + 1), s, mem, sq) ∧
    (sq.sqes start.sq.nextSlot).len = 1 ∧
    ¬ CanComplete (2 ^ 32 + 1) (sq.sqes start.sq.nextSlot) s mem ∧
    s.onCompletion mem ⟨⟨(freshStream idleSocket 0 1200).sendKey.asU64, 1, 0⟩, none,
      (freshStream idleSocket 0 1200).sendKey⟩ = .error .shortSend := by
  generalize hbuf : List.replicate (2 ^ 32 + 1) (0 : UInt8) = buf
  have hlen : buf.length = 2 ^ 32 + 1 := by rw [← hbuf, List.length_replicate]
  obtain ⟨sq, h⟩ : ∃ sq, (freshStream idleSocket 0 1200).write start.mem start.sq 0 buf =
      .ok (_, _, _, sq) :=
    TcpStream.write_isOk start.mem 0 rfl start_init.sq (by decide) (by omega)
  have hask : (sq.sqes start.sq.nextSlot).len = 1 := by
    rw [TcpStream.write_slot rfl h]
    change UInt32.ofNat buf.length = 1
    rw [hlen]
    rfl
  refine ⟨_, _, sq, hlen ▸ h, hask, fun hc => ?_, ?_⟩
  · have hasks := hc.asks
    rw [hask] at hasks
    exact absurd hasks (by decide)
  · have hkey : (freshStream idleSocket 0 1200).sendKey = .fromParts Event.send.toU8
        ((freshStream idleSocket 0 1200).written 0 buf).ownerId 1000 := rfl
    rw [TcpStream.onCompletion_fromParts hkey, TcpStream.arm,
      TcpStream.onSend, ensure_of (by decide), ok_bind, written_lookup, unwrap_some, ok_bind,
      ensure_of_not, error_bind]
    rw [hlen]
    decide

end UringWs
