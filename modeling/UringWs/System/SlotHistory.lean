import UringWs.Program.PingPong

/-! # Prepared entries and the history of their slots

An entry is handed out, built for one operation and tagged with the word of its
request. Initialisation and the builder share the fields of the entry between
them; a field that neither writes keeps what an earlier operation left there.
-/
namespace UringWs
open Checked

/-- A call of one of the builders, with its arguments. -/
inductive Builder
  | readAt (fd : Int32) (ptr : ℕ) (len : UInt32) (offset : UInt64)
  | recv (fd : Int32) (ptr : ℕ) (len flags : UInt32)
  | writeAt (fd : Int32) (ptr : ℕ) (len : UInt32) (offset : UInt64)
  | send (fd : Int32) (ptr : ℕ) (len flags : UInt32)
  | multishotRecv (fd : Int32) (flags : UInt32) (bufGroup : UInt16)

namespace Builder

def build : Builder → IoUringSqe → Except Fault IoUringSqe
  | readAt fd ptr len offset, sqe => .ok (Op.readAt fd ptr len offset sqe)
  | recv fd ptr len flags, sqe => .ok (Op.recv fd ptr len flags sqe)
  | writeAt fd ptr len offset, sqe => .ok (Op.writeAt fd ptr len offset sqe)
  | send fd ptr len flags, sqe => .ok (Op.send fd ptr len flags sqe)
  | multishotRecv fd flags bufGroup, sqe => Op.multishotRecv fd flags bufGroup sqe

/-- The arguments pass the builder's assertion. -/
def Accepts : Builder → Prop
  | multishotRecv _ flags _ => flags &&& msgWaitall = 0
  | _ => True

/-- Two slots agree on the fields that neither initialisation nor the builder writes. -/
def AgreeOnKept : Builder → IoUringSqe → IoUringSqe → Prop
  | readAt .., _, _ | writeAt .., _, _ => True
  | recv .., slot, slot' | send .., slot, slot' => slot.off = slot'.off
  | multishotRecv .., slot, slot' =>
    slot.off = slot'.off ∧ slot.addr = slot'.addr ∧ slot.len = slot'.len

end Builder

/-- The entry is handed out, built, and given its user data: its slot, and the
ring with the entry in it. -/
def prepareSqe (sq : IoUringSq) (b : Builder) (data : UInt64) : Except Fault (ℕ × IoUringSq) := do
  let (idx, sq) ← getSqeUnwrap sq
  let sqe ← b.build (sq.sqes idx)
  .ok (idx, (sq.modifySqe idx fun _ => sqe).modifySqe idx (ioUringSqeSetData data))

/-- What a preparation leaves on the ring: the slot and its entry. -/
def preparedSqe (sq : IoUringSq) (b : Builder) (data : UInt64) : Except Fault (ℕ × IoUringSqe) := do
  let (idx, sq) ← prepareSqe sq b data
  .ok (idx, sq.sqes idx)

namespace IoUringSq

/-- The next slot is free to be handed out. -/
def HasRoom (sq : IoUringSq) : Prop := sq.sqeTail + 1 - sq.khead ≤ sq.ringEntries

def nextSlot (sq : IoUringSq) : ℕ := ((sq.sqeTail &&& sq.ringMask) <<< (0 : UInt32)).toNat

/-- The rings differ at most in what their slots hold. -/
structure SameCounters (sq sq' : IoUringSq) : Prop where
  khead : sq.khead = sq'.khead
  sqeTail : sq.sqeTail = sq'.sqeTail
  ringMask : sq.ringMask = sq'.ringMask
  ringEntries : sq.ringEntries = sq'.ringEntries

variable {sq sq' : IoUringSq}

theorem SameCounters.hasRoom (h : SameCounters sq sq') : sq.HasRoom ↔ sq'.HasRoom := by
  rw [HasRoom, HasRoom, h.khead, h.sqeTail, h.ringEntries]

theorem SameCounters.nextSlot (h : SameCounters sq sq') : sq.nextSlot = sq'.nextSlot := by
  rw [IoUringSq.nextSlot, IoUringSq.nextSlot, h.sqeTail, h.ringMask]

end IoUringSq

theorem getSqeUnwrap_room {sq : IoUringSq} (h : sq.HasRoom) :
    getSqeUnwrap sq = .ok (sq.nextSlot, { sq with
      sqeTail := sq.sqeTail + 1
      sqes := Function.update sq.sqes sq.nextSlot
        (ioUringInitializeSqe (sq.sqes sq.nextSlot)) }) := by
  have h : sq.sqeTail + 1 - sq.khead ≤ sq.ringEntries := h
  simp only [getSqeUnwrap, ioUringGetSqe, if_pos h]
  rfl

theorem getSqeUnwrap_full {sq : IoUringSq} (h : ¬ sq.HasRoom) :
    getSqeUnwrap sq = .error .sqOverflow := by
  have h : ¬ sq.sqeTail + 1 - sq.khead ≤ sq.ringEntries := h
  simp only [getSqeUnwrap, ioUringGetSqe, if_neg h]

namespace Builder

/-- A builder neither reads nor writes the user data. -/
theorem build_setData (b : Builder) (data : UInt64) (sqe : IoUringSqe) :
    b.build (ioUringSqeSetData data sqe) = (b.build sqe).map (ioUringSqeSetData data) := by
  cases b with
  | multishotRecv fd flags bufGroup =>
    by_cases h : flags &&& msgWaitall = 0
    · simp [build, Op.multishotRecv, ensure_of h, Except.map, ioUringSqeSetData]
    · simp [build, Op.multishotRecv, ensure_of_not h, Except.map]
  | _ => rfl

theorem build_eq_error {b : Builder} (h : ¬ b.Accepts) (sqe : IoUringSqe) :
    b.build sqe = .error .waitallMultishot := by
  cases b with
  | multishotRecv fd flags bufGroup =>
    have h : ¬ flags &&& msgWaitall = 0 := h
    rw [build, Op.multishotRecv, ensure_of_not h, error_bind]
  | _ => exact absurd trivial h

/-- The entries built in two slots are the same when the slots agree on the kept fields. -/
theorem build_eq_iff {b : Builder} (h : b.Accepts) (data : UInt64) (slot slot' : IoUringSqe) :
    (b.build (ioUringInitializeSqe slot)).map (ioUringSqeSetData data) =
      (b.build (ioUringInitializeSqe slot')).map (ioUringSqeSetData data) ↔
      b.AgreeOnKept slot slot' := by
  cases b with
  | multishotRecv fd flags bufGroup =>
    have h : flags &&& msgWaitall = 0 := h
    simp [build, Op.multishotRecv, ensure_of h, Except.map, AgreeOnKept, ioUringInitializeSqe,
      ioUringSqeSetData]
  | _ =>
    simp [build, Op.readAt, Op.recv, Op.writeAt, Op.send, Except.map, AgreeOnKept,
      ioUringInitializeSqe, ioUringSqeSetData]

end Builder

theorem preparedSqe_full {sq : IoUringSq} (h : ¬ sq.HasRoom) (b : Builder) (data : UInt64) :
    preparedSqe sq b data = .error .sqOverflow := by
  rw [preparedSqe, prepareSqe, getSqeUnwrap_full h]
  rfl

/-- With room, the entry is built from the initialised contents of the next slot. -/
theorem preparedSqe_room {sq : IoUringSq} (h : sq.HasRoom) (b : Builder) (data : UInt64) :
    preparedSqe sq b data =
      ((b.build (ioUringInitializeSqe (sq.sqes sq.nextSlot))).map (ioUringSqeSetData data)).map
        (sq.nextSlot, ·) := by
  simp only [preparedSqe, prepareSqe, getSqeUnwrap_room h, ok_bind, Function.update_self]
  cases b.build (ioUringInitializeSqe (sq.sqes sq.nextSlot)) with
  | error f => rfl
  | ok sqe => simp [IoUringSq.modifySqe, Except.map]

theorem map_pair_inj {ε α : Type*} {i : ℕ} {x y : Except ε α} :
    x.map (i, ·) = y.map (i, ·) ↔ x = y := by
  cases x <;> cases y <;> simp [Except.map]

/-- A ring of one entry that has handed out none. -/
def emptySq : IoUringSq :=
  { khead := 0, sqeTail := 0, ringMask := 0, ringEntries := 1, sqes := fun _ => default }

/-- On rings with the same counters the same entry is left exactly when the slots
handed out agree on every field that the initialisation and the builder keep. -/
theorem prepared_eq_iff {sq sq' : IoUringSq} (h : sq.SameCounters sq') (b : Builder)
    (data : UInt64) : preparedSqe sq b data = preparedSqe sq' b data ↔
      (sq.HasRoom → b.Accepts → b.AgreeOnKept (sq.sqes sq.nextSlot) (sq'.sqes sq.nextSlot)) := by
  by_cases hroom : sq.HasRoom
  · rw [preparedSqe_room hroom, preparedSqe_room (h.hasRoom.mp hroom), ← h.nextSlot, map_pair_inj]
    by_cases ha : b.Accepts
    · rw [Builder.build_eq_iff ha]
      exact ⟨fun hk _ _ => hk, fun hk => hk hroom ha⟩
    · rw [Builder.build_eq_error ha, Builder.build_eq_error ha]
      exact ⟨fun _ _ ha' => absurd ha' ha, fun _ => rfl⟩
  · rw [preparedSqe_full hroom, preparedSqe_full (fun hr => hroom (h.hasRoom.mpr hr))]
    exact ⟨fun _ hr => absurd hr hroom, fun _ => rfl⟩

theorem prepared_eq_iff_writeAt :
    preparedSqe emptySq (.writeAt 3 4096 5 0) 7 =
      preparedSqe { emptySq with sqes := fun _ => { (default : IoUringSqe) with len := 9 } }
        (.writeAt 3 4096 5 0) 7 :=
  (prepared_eq_iff ⟨rfl, rfl, rfl, rfl⟩ _ _).mpr fun _ _ => trivial

/-- A ring of one entry, after its only slot has carried a send. -/
def reusedSq : IoUringSq :=
  match prepareSqe emptySq (.send 3 4096 1600 msgWaitall) 7 with
  | .ok (_, sq) => sq.kernelTake 1
  | .error _ => emptySq

/-- The receive prepared in the send's slot still carries the send's address and length. -/
theorem multishotRecv_keeps_len :
    { emptySq with khead := 1, sqeTail := 1 }.SameCounters reusedSq ∧
      preparedSqe { emptySq with khead := 1, sqeTail := 1 } (.multishotRecv 3 0 0) 8 ≠
        preparedSqe reusedSq (.multishotRecv 3 0 0) 8 ∧
      ((preparedSqe reusedSq (.multishotRecv 3 0 0) 8).map fun e => (e.2.addr, e.2.len)) =
        .ok (4096, 1600) := by
  refine ⟨⟨?_, ?_, ?_, ?_⟩, ?_, ?_⟩ <;> decide

/-! ### The preparations of the program -/

theorem prepSend_setData (sq : IoUringSq) (fd : Int32) (ptr len : ℕ) (flags : UInt32)
    (data : UInt64) :
    (do
      let (idx, sq) ← prepSend sq fd ptr len flags
      .ok (idx, sq.modifySqe idx (ioUringSqeSetData data))) =
      prepareSqe sq (.send fd ptr (UInt32.ofNat len) flags) data := by
  unfold prepSend prepareSqe
  cases getSqeUnwrap sq with
  | error f => rfl
  | ok r => rfl

/-- The user data may as well be stored before the builder runs. -/
theorem prepareSqe_dataFirst (sq : IoUringSq) (b : Builder) (data : UInt64) :
    (do
      let (idx, sq) ← getSqeUnwrap sq
      let sq := sq.modifySqe idx (ioUringSqeSetData data)
      let sqe ← b.build (sq.sqes idx)
      .ok (idx, sq.modifySqe idx fun _ => sqe)) = prepareSqe sq b data := by
  unfold prepareSqe
  cases getSqeUnwrap sq with
  | error f => rfl
  | ok r =>
    obtain ⟨idx, sq⟩ := r
    simp only [ok_bind, IoUringSq.modifySqe, Function.update_self, b.build_setData]
    cases b.build (sq.sqes idx) with
    | error f => rfl
    | ok sqe => simp [Except.map]

/-- The set-up loop prepares the stream's receive. -/
theorem setupStream_prepares (pool : BufRingPool) (mem : Memory) (sq : IoUringSq)
    (raw : RawTcpStream) (g : UInt16) (recvId : UInt32) (setup : Option RingPtr)
    (base : Option ℕ) : setupStream pool mem sq raw g recvId setup base = (do
      let (pool, mem) ← pool.newBufferGroup mem g setup base
      let (_, sq) ← prepareSqe sq (.multishotRecv raw.fd 0 g)
        (UserData.fromParts Event.multishortRecv.toU8 g recvId).asU64
      .ok (pool, mem, sq, freshStream raw g recvId)) := by
  simp only [setupStream, ← prepareSqe_dataFirst, bind_assoc]
  rfl

/-- A nonblocking write prepares its send. -/
theorem TcpStream.write_prepares {s s' : TcpStream} {mem mem' : Memory} {sq sq' : IoUringSq}
    {ptr : ℕ} {buf : List UInt8} {r : Except IoError ℕ} (hn : s.nonblocking = true)
    (h : s.write mem sq ptr buf = .ok (r, s', mem', sq')) :
    r = .ok buf.length ∧ 0 < buf.length ∧ s' = s.written ptr buf ∧
      ∃ idx, prepareSqe sq (.send s.asRawFd ptr (UInt32.ofNat buf.length) msgWaitall)
        s.sendKey.asU64 = .ok (idx, sq') := by
  rw [write, if_neg (by simp [hn])] at h
  simp only [bind_eq_ok, ensure_eq_ok, exists_const, Prod.exists, Except.ok.injEq,
    Prod.mk.injEq, nextSendId] at h
  obtain ⟨hpos, idx, sq₁, hprep, rfl, rfl, -, rfl⟩ := h
  refine ⟨rfl, hpos, rfl, idx, ?_⟩
  rw [← prepSend_setData, bind_eq_ok]
  exact ⟨_, hprep, rfl⟩

end UringWs
