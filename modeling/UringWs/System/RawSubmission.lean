import UringWs.Program.RawSqe
import UringWs.System.SlotHistory
import UringWs.System.SubmissionQueue

/-! # The submission ring in raw memory

The program stores an entry field by field through a pointer into the shared
array, and the kernel fetches 64 bytes. Runs over the bytes are runs of the ring
of entries, so what holds of the entries holds of their bytes.
-/
namespace UringWs
open Checked

namespace Builder

/-- The pointer argument is an address. -/
def Addressable : Builder → Prop
  | readAt _ ptr _ _ | recv _ ptr _ _ | writeAt _ ptr _ _ | send _ ptr _ _ => ptr < 2 ^ 64
  | multishotRecv .. => True

/-- The builder on the i-th entry of the array. -/
def store : Builder → RawSqes → ℕ → Except Fault RawSqes
  | readAt fd ptr len offset, sqes, i => .ok (sqes.readAt i fd (UInt64.ofNat ptr) len offset)
  | recv fd ptr len flags, sqes, i => .ok (sqes.recv i fd (UInt64.ofNat ptr) len flags)
  | writeAt fd ptr len offset, sqes, i => .ok (sqes.writeAt i fd (UInt64.ofNat ptr) len offset)
  | send fd ptr len flags, sqes, i => .ok (sqes.send i fd (UInt64.ofNat ptr) len flags)
  | multishotRecv fd flags bufGroup, sqes, i => sqes.multishotRecv i fd flags bufGroup

variable {b : Builder} {sqes sqes' : RawSqes} {i : ℕ}

/-- On the entry that the bytes stand for, the stores are the builder. -/
theorem sqe_store (sqes : RawSqes) (i : ℕ) (h : b.Addressable) :
    (b.store sqes i).map (·.sqe i) = b.build (sqes.sqe i) := by
  cases b with
  | readAt fd ptr len offset =>
    rw [store, build, Except.map, RawSqes.sqe_readAt, UInt64.toNat_ofNat_of_lt' h]
  | recv fd ptr len flags =>
    rw [store, build, Except.map, RawSqes.sqe_recv, UInt64.toNat_ofNat_of_lt' h]
  | writeAt fd ptr len offset =>
    rw [store, build, Except.map, RawSqes.sqe_writeAt, UInt64.toNat_ofNat_of_lt' h]
  | send fd ptr len flags =>
    rw [store, build, Except.map, RawSqes.sqe_send, UInt64.toNat_ofNat_of_lt' h]
  | multishotRecv fd flags bufGroup => exact RawSqes.sqe_multishotRecv fd flags bufGroup

theorem store_stores (h : b.store sqes i = .ok sqes') : sqes.Stores i sqes' := by
  cases b with
  | multishotRecv fd flags bufGroup =>
    rw [store, RawSqes.multishotRecv, bind_eq_ok] at h
    obtain ⟨-, -, h⟩ := h
    exact ⟨_, (Except.ok.inj h).symm⟩
  | _ => exact ⟨_, (Except.ok.inj h).symm⟩

end Builder

/-! ### One preparation -/

namespace RawSq

/-- The entry is handed out, built, and given its user data, in memory. -/
def prepareSqe (sq : RawSq) (b : Builder) (data : UInt64) : Except Fault (ℕ × RawSq) :=
  match sq.ioUringGetSqe with
  | (.ok idx, sq) => do
    let sqes ← b.store sq.sqes idx
    .ok (idx, { sq with sqes := sqes.setData idx data })
  | (.error _, _) => .error .sqOverflow

variable {sq sq' : RawSq} {idx : ℕ} {b : Builder} {data : UInt64} {sqes : RawSqes}

theorem toSq_stores (sq : RawSq) (h : sq.sqes.Stores idx sqes) : RawSq.toSq { sq with sqes } =
    sq.toSq.modifySqe idx fun _ => sqes.sqe idx := by
  simp only [toSq, IoUringSq.modifySqe]
  rw [h.sqe_eq]
  simp

theorem getSqe_eq_ok (h : sq.ioUringGetSqe = (.ok idx, sq')) :
    sq'.ringEntries = sq.ringEntries ∧ sq.sqes.Stores idx sq'.sqes := by
  by_cases hroom : sq.sqeTail + 1 - sq.khead ≤ sq.ringEntries
  · simp only [ioUringGetSqe, if_pos hroom, Prod.mk.injEq, Except.ok.injEq] at h
    obtain ⟨rfl, rfl⟩ := h
    exact ⟨rfl, RawSqes.stores_initialize⟩
  · simp [ioUringGetSqe, if_neg hroom] at h

theorem getSqe_eq_error {e : String} (h : sq.ioUringGetSqe = (.error e, sq')) : sq' = sq := by
  by_cases hroom : sq.sqeTail + 1 - sq.khead ≤ sq.ringEntries
  · simp [ioUringGetSqe, if_pos hroom] at h
  · simp only [ioUringGetSqe, if_neg hroom, Prod.mk.injEq] at h
    exact h.2.symm

theorem toSq_prepareSqe (sq : RawSq) (data : UInt64) (h : b.Addressable) :
    (sq.prepareSqe b data).map (Prod.map id toSq) = UringWs.prepareSqe sq.toSq b data := by
  unfold prepareSqe UringWs.prepareSqe getSqeUnwrap
  rw [toSq_getSqe]
  rcases sq.ioUringGetSqe with ⟨_ | idx, sq'⟩
  · rfl
  · have hbuild : b.build (sq'.toSq.sqes idx) = _ := (Builder.sqe_store _ _ h).symm
    simp only [ok_bind, hbuild]
    cases hstore : b.store sq'.sqes idx with
    | error f => rfl
    | ok sqes =>
      have hset := toSq_stores { sq' with sqes } (RawSqes.stores_setData (i := idx) data)
      rw [toSq_stores _ (Builder.store_stores hstore), RawSqes.sqe_setData] at hset
      simp only [Except.map, ok_bind, Prod.map, id, hset]
      simp [IoUringSq.modifySqe]

end RawSq

/-- A preparation over the bytes gives the result of the preparation over the entries;
on success it writes the 64 bytes of its slot only, and these encode the entry. -/
theorem raw_prepare (sq : RawSq) (b : Builder) (data : UInt64) (h : b.Addressable) :
    (sq.prepareSqe b data).map (Prod.map id RawSq.toSq) = prepareSqe sq.toSq b data ∧
      ∀ idx sq', sq.prepareSqe b data = .ok (idx, sq') →
        (∀ a, ¬ (64 * idx ≤ a ∧ a < 64 * idx + 64) → sq'.sqes a = sq.sqes a) ∧
        ∃ sqe, preparedSqe sq.toSq b data = .ok (idx, sqe) ∧
          sq'.sqes.bytes idx = RawSqes.encode sqe := by
  have htoSq := RawSq.toSq_prepareSqe sq data h
  refine ⟨htoSq, fun idx sq' hok => ?_⟩
  constructor
  · intro a ha
    unfold RawSq.prepareSqe at hok
    rcases hget : sq.ioUringGetSqe with ⟨_ | i, sq₁⟩
    · rw [hget] at hok
      cases hok
    · simp only [hget, bind_eq_ok, Except.ok.injEq, Prod.mk.injEq] at hok
      obtain ⟨sqes, hstore, rfl, rfl⟩ := hok
      calc
        sqes.setData i data a = sqes a := (RawSqes.stores_setData data).outside ha
        _ = sq₁.sqes a := (Builder.store_stores hstore).outside ha
        _ = sq.sqes a := (RawSq.getSqe_eq_ok hget).2.outside ha
  · refine ⟨sq'.toSq.sqes idx, ?_, ?_⟩
    · rw [preparedSqe, ← htoSq, hok]
      rfl
    · rw [show sq'.toSq.sqes idx = sq'.sqes.sqe idx from rfl, ← RawSqes.decode_bytes,
        RawSqes.encode_decode]

/-- A ring of one entry whose memory holds stale bytes. -/
def staleSq : RawSq :=
  { khead := 0, sqeTail := 0, ringMask := 0, ringEntries := 1, sqes := fun _ => 7 }

theorem raw_prepare_send : ∃ sq' sqe,
    staleSq.prepareSqe (.send 3 4096 5 0) 9 = .ok (0, sq') ∧ sq'.sqes 64 = 7 ∧
      preparedSqe staleSq.toSq (.send 3 4096 5 0) 9 = .ok (0, sqe) ∧
      sq'.sqes.bytes 0 = RawSqes.encode sqe := by
  have hb : (Builder.send 3 4096 5 0).Addressable := by
    unfold Builder.Addressable
    decide
  obtain ⟨-, hok⟩ := raw_prepare staleSq (.send 3 4096 5 0) 9 hb
  have hprep : staleSq.prepareSqe (.send 3 4096 5 0) 9 = .ok (0, _) := rfl
  obtain ⟨houtside, sqe, hsqe, hbytes⟩ := hok 0 _ hprep
  exact ⟨_, sqe, hprep, houtside 64 (by decide), hsqe, hbytes⟩

/-! ### Runs -/

namespace RawSubmission

/-- A slot index with the bytes of that slot. -/
abbrev Entry := ℕ × RawSqes.SqeBytes

def Entry.decode (e : Entry) : SubmissionQueue.Entry := (e.1, RawSqes.decode e.2)

structure State where
  sq : RawSq
  /-- the tail last published to the kernel -/
  ktail : UInt32
  handed : List Entry
  consumed : List Entry

inductive Action
  | getSqe
  | build (j : ℕ) (b : Builder)
  | setData (j : ℕ) (data : UInt64)
  | submit
  | consume (n : ℕ)

namespace State

def getSqe (s : State) : State :=
  match s.sq.ioUringGetSqe with
  | (.ok idx, sq) => { s with sq, handed := s.handed ++ [(idx, sq.sqes.bytes idx)] }
  | (.error _, sq) => { s with sq }

def unconsumed (s : State) : List Entry := s.handed.drop s.consumed.length

/-- The bytes the kernel finds in the next n slots. -/
def fetch (s : State) (n : ℕ) : List Entry :=
  (List.range n).map fun j =>
    let idx := (s.sq.khead + UInt32.ofNat j) &&& s.sq.ringMask
    (idx.toNat, s.sq.sqes.bytes idx.toNat)

/-- The state after stores through the pointer of the j-th unconsumed entry. -/
def stored (s : State) (j : ℕ) (e : Entry) (sqes : RawSqes) : State :=
  { s with
    sq := { s.sq with sqes }
    handed := s.handed.set (s.consumed.length + j) (e.1, sqes.bytes e.1) }

/-- The ring of entries that the memory stands for. -/
def toState (s : State) : SubmissionQueue.State :=
  { sq := s.sq.toSq
    ktail := s.ktail
    handed := s.handed.map Entry.decode
    consumed := s.consumed.map Entry.decode }

end State

inductive Step : State → Action → State → Prop
  | getSqe (s : State) : Step s .getSqe s.getSqe
  | build {s : State} {j : ℕ} {e : Entry} {b : Builder} {sqes : RawSqes}
      (he : s.unconsumed[j]? = some e) (hb : b.Addressable)
      (hstore : b.store s.sq.sqes e.1 = .ok sqes) : Step s (.build j b) (s.stored j e sqes)
  | setData {s : State} {j : ℕ} {e : Entry} (data : UInt64)
      (he : s.unconsumed[j]? = some e) :
      Step s (.setData j data) (s.stored j e (s.sq.sqes.setData e.1 data))
  | submit (s : State) : Step s .submit { s with ktail := s.sq.sqeTail }
  | consume {s : State} {n : ℕ} (hn : n ≤ (s.ktail - s.sq.khead).toNat) :
      Step s (.consume n) { s with
        sq := { s.sq with khead := s.sq.khead + UInt32.ofNat n }
        consumed := s.consumed ++ s.fetch n }

/-- The shared array holds some bytes, and nothing has been handed out. -/
structure Init (sqes : RawSqes) (s : State) : Prop where
  ring : RingWindow.MaskedRing s.sq.ringEntries s.sq.ringMask
  tail : s.sq.sqeTail = s.sq.khead
  ktail : s.ktail = s.sq.sqeTail
  sqes : s.sq.sqes = sqes
  handed : s.handed = []
  consumed : s.consumed = []

def rawRing (sqes : RawSqes) : System State Action := { init := Init sqes, step := Step }

theorem Entry.decode_injective : Function.Injective Entry.decode := by
  intro e e' h
  obtain ⟨hidx, hbytes⟩ := Prod.mk.inj h
  exact Prod.ext hidx (RawSqes.decode_injective hbytes)

namespace State
variable {s : State} {j : ℕ} {e : Entry} {sqes : RawSqes}

theorem toState_unconsumed : s.toState.unconsumed = s.unconsumed.map Entry.decode := by
  simp only [SubmissionQueue.State.unconsumed, toState, unconsumed, List.length_map, List.map_drop]

theorem toState_fetch (n : ℕ) : s.toState.fetch n = (s.fetch n).map Entry.decode := by
  simp [SubmissionQueue.State.fetch, toState, RawSq.toSq, fetch, Entry.decode]

theorem toState_getSqe : s.getSqe.toState = s.toState.getSqe := by
  unfold getSqe SubmissionQueue.State.getSqe
  rw [show s.toState.sq = s.sq.toSq from rfl, RawSq.toSq_getSqe]
  rcases s.sq.ioUringGetSqe with ⟨_ | idx, sq⟩
  · rfl
  · simp [toState, Entry.decode, RawSq.toSq]

theorem toState_stored (h : s.sq.sqes.Stores e.1 sqes) (f : IoUringSqe → IoUringSqe)
    (hf : sqes.sqe e.1 = f (RawSqes.decode e.2)) (hsqe : s.sq.sqes.sqe e.1 = RawSqes.decode e.2) :
    (s.stored j e sqes).toState = { s.toState with
      sq := s.toState.sq.modifySqe e.1 f
      handed := s.toState.handed.set (s.toState.consumed.length + j) (e.decode.1, f e.decode.2) } := by
  have hsq : RawSq.toSq { s.sq with sqes } = s.sq.toSq.modifySqe e.1 f := by
    rw [RawSq.toSq_stores _ h, hf]
    simp only [IoUringSq.modifySqe, RawSq.toSq, hsqe]
  simp only [toState, stored, hsq, List.map_set, List.length_map]
  simp only [Entry.decode, RawSqes.decode_bytes, hf]

end State

/-- In a reachable ring of entries an unconsumed entry stands in its slot. -/
theorem slot_of_unconsumed {s : State} (h : SubmissionQueue.submissionRing.Reachable s.toState) {e : Entry}
    (he : e ∈ s.unconsumed) :
    e.1 < s.sq.ringEntries.toNat ∧ s.sq.sqes.sqe e.1 = RawSqes.decode e.2 := by
  have hmem : e.decode ∈ s.toState.unconsumed := by
    rw [State.toState_unconsumed]
    exact List.mem_map_of_mem he
  exact (SubmissionQueue.reachable_inv h).intact hmem

theorem toState_unconsumed_get {s : State} {j : ℕ} {e : Entry} (he : s.unconsumed[j]? = some e) :
    s.toState.unconsumed[j]? = some e.decode := by
  rw [State.toState_unconsumed, List.getElem?_map, he, Option.map_some]

/-- Each step over the bytes is the step of the ring of entries. -/
theorem toState_step {s t : State} {a : Action}
    (h : SubmissionQueue.submissionRing.Reachable s.toState) (hs : Step s a t) :
    SubmissionQueue.submissionRing.Reachable t.toState := by
  cases hs with
  | getSqe =>
    rw [State.toState_getSqe]
    exact h.next trivial (.getSqe _)
  | @build j e b sqes he hb hstore =>
    have hslot := (slot_of_unconsumed h (List.mem_of_getElem? he)).2
    have hbuild := Builder.sqe_store s.sq.sqes e.1 hb
    rw [hstore, hslot] at hbuild
    let f : IoUringSqe → IoUringSqe := fun sqe => (b.build sqe).toOption.getD sqe
    have hf : sqes.sqe e.1 = f (RawSqes.decode e.2) := by
      simp only [f, ← hbuild]
      rfl
    rw [State.toState_stored (Builder.store_stores hstore) f hf hslot]
    exact h.next trivial (.fill f (toState_unconsumed_get he))
  | @setData j e data he =>
    have hslot := (slot_of_unconsumed h (List.mem_of_getElem? he)).2
    have hf : (s.sq.sqes.setData e.1 data).sqe e.1 = _ := RawSqes.sqe_setData data
    rw [hslot] at hf
    rw [State.toState_stored (RawSqes.stores_setData data) (ioUringSqeSetData data) hf hslot]
    exact h.next trivial (.fill _ (toState_unconsumed_get he))
  | submit => exact h.next trivial (.submit _)
  | @consume n hn =>
    have hnext := h.next trivial (.consume (n := n) hn)
    rw [State.toState_fetch] at hnext
    simpa [State.toState, RawSq.toSq, IoUringSq.kernelTake] using hnext

theorem toState_reachable {sqes : RawSqes} {s : State} (h : (rawRing sqes).Reachable s) :
    SubmissionQueue.submissionRing.Reachable s.toState := by
  refine h.invariant (P := fun s => SubmissionQueue.submissionRing.Reachable s.toState) ?_ ?_
  · intro s hs
    exact .start ⟨hs.ring, hs.tail, hs.ktail, by rw [State.toState, hs.handed, List.map_nil],
      by rw [State.toState, hs.consumed, List.map_nil]⟩
  · intro s a t _ hr _ hs
    exact toState_step hr hs

/-- A step stores in the array only. -/
theorem step_outside {s t : State} {a : Action}
    (h : SubmissionQueue.submissionRing.Reachable s.toState) (hs : Step s a t) :
    t.sq.ringEntries = s.sq.ringEntries ∧
      ∀ addr, 64 * s.sq.ringEntries.toNat ≤ addr → t.sq.sqes addr = s.sq.sqes addr := by
  cases hs with
  | getSqe =>
    unfold State.getSqe
    rcases hget : s.sq.ioUringGetSqe with ⟨_ | idx, sq⟩
    · have hsame := RawSq.getSqe_eq_error hget
      exact ⟨by rw [hsame], fun _ _ => by rw [hsame]⟩
    · have hfresh := (SubmissionQueue.reachable_inv h).safe.fresh idx sq.toSq (by
        rw [show s.toState.sq = s.sq.toSq from rfl, RawSq.toSq_getSqe, hget])
      have hidx : idx < s.sq.ringEntries.toNat := hfresh.1
      obtain ⟨hentries, hstores⟩ := RawSq.getSqe_eq_ok hget
      exact ⟨hentries, fun addr haddr => hstores.outside (by omega)⟩
  | build he hb hstore =>
    have hidx := (slot_of_unconsumed h (List.mem_of_getElem? he)).1
    exact ⟨rfl, fun addr haddr => (Builder.store_stores hstore).outside (by omega)⟩
  | setData data he =>
    have hidx := (slot_of_unconsumed h (List.mem_of_getElem? he)).1
    exact ⟨rfl, fun addr haddr => (RawSqes.stores_setData data).outside (by omega)⟩
  | submit => exact ⟨rfl, fun _ _ => rfl⟩
  | consume => exact ⟨rfl, fun _ _ => rfl⟩

/-- The shared memory in one state of a run that started with the bytes `sqes`. -/
structure Refines (sqes : RawSqes) (s : State) : Prop where
  ring : SubmissionQueue.submissionRing.Reachable s.toState
  /-- the bytes of an unconsumed entry are those last stored -/
  intact : ∀ e ∈ s.unconsumed, e.1 < s.sq.ringEntries.toNat ∧ s.sq.sqes.bytes e.1 = e.2
  /-- the kernel has fetched the entries handed out, in order and byte for byte -/
  ordered : s.consumed <+: s.handed
  /-- the memory behind the array is as it was -/
  outside : ∀ addr, 64 * s.sq.ringEntries.toNat ≤ addr → s.sq.sqes addr = sqes addr

theorem reachable_outside {sqes : RawSqes} {s : State} (h : (rawRing sqes).Reachable s) :
    ∀ addr, 64 * s.sq.ringEntries.toNat ≤ addr → s.sq.sqes addr = sqes addr := by
  refine h.invariant (P := fun s => ∀ addr, 64 * s.sq.ringEntries.toNat ≤ addr →
    s.sq.sqes addr = sqes addr) ?_ ?_
  · intro s hs addr _
    rw [hs.sqes]
  · intro s a t hr ih _ hs addr haddr
    obtain ⟨hentries, hout⟩ := step_outside (toState_reachable hr) hs
    rw [hentries] at haddr
    exact (hout addr haddr).trans (ih addr haddr)

theorem raw_submission_refines {sqes : RawSqes} {s : State} (h : (rawRing sqes).Reachable s) :
    Refines sqes s := by
  have hring := toState_reachable h
  refine ⟨hring, fun e he => ?_, ?_, reachable_outside h⟩
  · obtain ⟨hidx, hsqe⟩ := slot_of_unconsumed hring he
    rw [← RawSqes.decode_bytes] at hsqe
    exact ⟨hidx, RawSqes.decode_injective hsqe⟩
  · have hprefix := (SubmissionQueue.reachable_inv hring).safe.ordered
    exact (List.prefix_map_iff_of_injective Entry.decode_injective).mp hprefix

def nearWrap : State where
  sq := { khead := 0xFFFFFFFF, sqeTail := 0xFFFFFFFF, ringMask := 1, ringEntries := 2,
          sqes := fun _ => 7 }
  ktail := 0xFFFFFFFF
  handed := []
  consumed := []

theorem nearWrap_init : Init (fun _ => 7) nearWrap :=
  ⟨⟨⟨1, by decide, rfl⟩, rfl⟩, rfl, rfl, rfl, rfl, rfl⟩

/-- Across the wrap: a send is stored over stale bytes in slot one and consumed. -/
theorem raw_submission_refines_wrap : ∃ s : State, s.sq.khead = 0 ∧ s.sq.sqeTail = 1 ∧
    s.handed.map Prod.fst = [1, 0] ∧
    s.consumed.map (fun e => (e.1, e.2.1.take 9)) = [(1, [26, 0, 0, 0, 3, 0, 0, 0, 7])] ∧
    Refines (fun _ => 7) s := by
  have h₀ : (rawRing fun _ => 7).Reachable nearWrap := .start nearWrap_init
  have h₁ := h₀.next trivial (.getSqe _)
  have h₂ := h₁.next trivial (.build (j := 0) (b := .send 3 4096 5 0) rfl
    (by unfold Builder.Addressable; decide) rfl)
  have h₃ := (h₂.next trivial (.getSqe _)).next trivial (.submit _)
  have h₄ := h₃.next trivial (.consume (n := 1) (by decide))
  exact ⟨_, by decide, by decide, by decide, by decide, raw_submission_refines h₄⟩

end RawSubmission
end UringWs
