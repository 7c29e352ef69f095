import UringWs.Program.Ring
import UringWs.Foundation.Transition

/-! # The submission ring under any interleaving

The program hands out entries and writes them, publishes its tail, and the
kernel consumes published entries at its own pace. The history keeps every
entry handed out, as last written, and every entry the kernel consumed.
-/
namespace UringWs.SubmissionQueue
open RingWindow

/-- A slot index with the contents of that slot. -/
abbrev Entry := ℕ × IoUringSqe

structure State where
  sq : IoUringSq
  /-- the tail last published to the kernel -/
  ktail : UInt32
  handed : List Entry
  consumed : List Entry

inductive Action
  | getSqe
  | fill (j : ℕ) (f : IoUringSqe → IoUringSqe)
  | submit
  | consume (n : ℕ)

def State.getSqe (s : State) : State :=
  match ioUringGetSqe s.sq with
  | (.ok idx, sq) => { s with sq, handed := s.handed ++ [(idx, sq.sqes idx)] }
  | (.error _, sq) => { s with sq }

def State.unconsumed (s : State) : List Entry := s.handed.drop s.consumed.length

def State.fetch (s : State) (n : ℕ) : List Entry :=
  (List.range n).map fun j =>
    let idx := (s.sq.khead + UInt32.ofNat j) &&& s.sq.ringMask
    (idx.toNat, s.sq.sqes idx.toNat)

inductive Step : State → Action → State → Prop
  | getSqe (s : State) : Step s .getSqe s.getSqe
  /-- writing through the pointer of the j-th unconsumed entry -/
  | fill {s : State} {j : ℕ} {e : Entry} (f : IoUringSqe → IoUringSqe)
      (he : s.unconsumed[j]? = some e) :
      Step s (.fill j f) { s with
        sq := s.sq.modifySqe e.1 f
        handed := s.handed.set (s.consumed.length + j) (e.1, f e.2) }
  | submit (s : State) : Step s .submit { s with ktail := s.sq.sqeTail }
  | consume {s : State} {n : ℕ} (hn : n ≤ (s.ktail - s.sq.khead).toNat) :
      Step s (.consume n) { s with
        sq := s.sq.kernelTake n, consumed := s.consumed ++ s.fetch n }

structure Init (s : State) : Prop where
  ring : MaskedRing s.sq.ringEntries s.sq.ringMask
  tail : s.sq.sqeTail = s.sq.khead
  ktail : s.ktail = s.sq.sqeTail
  handed : s.handed = []
  consumed : s.consumed = []

def submissionRing : System State Action := { init := Init, step := Step }

def State.ringWindow (s : State) : List Entry :=
  window (fun i => (i, s.sq.sqes i)) s.sq.ringEntries.toNat s.sq.khead.toNat s.sq.count

/-- What was handed out is what was consumed followed by what the window holds. -/
structure Inv (s : State) : Prop where
  wf : s.sq.Wf
  published : (s.ktail - s.sq.khead).toNat ≤ s.sq.count
  history : s.handed = s.consumed ++ s.ringWindow

theorem Inv.unconsumed {s : State} (h : Inv s) : s.unconsumed = s.ringWindow := by
  rw [State.unconsumed, h.history, List.drop_left]

theorem Inv.unconsumed_length {s : State} (h : Inv s) : s.unconsumed.length = s.sq.count := by
  rw [h.unconsumed, State.ringWindow, window_length]

theorem inv_init {s : State} (h : Init s) : Inv s := by
  have hc : s.sq.count = 0 := by simp [IoUringSq.count, h.tail]
  refine ⟨⟨h.ring, by omega⟩, ?_, ?_⟩
  · simp [h.ktail, h.tail]
  · simp [h.handed, h.consumed, State.ringWindow, hc]

theorem update_entry (sqes : ℕ → IoUringSqe) (idx : ℕ) (sqe : IoUringSqe) :
    (fun i => (i, Function.update sqes idx sqe i)) =
      Function.update (fun i => (i, sqes i)) idx (idx, sqe) := by
  funext i
  by_cases h : i = idx <;> simp [h]

theorem inv_getSqe {s : State} (h : Inv s) : Inv s.getSqe := by
  rcases Nat.lt_or_ge s.sq.count s.sq.ringEntries.toNat with hr | hr
  · have hc := IoUringSq.count_succ h.wf
    simp only [State.getSqe, IoUringSq.getSqe_room h.wf hr]
    refine ⟨⟨h.wf.ring, ?_⟩, ?_, ?_⟩
    · exact hc.trans_le hr
    · exact h.published.trans ((Nat.le_succ _).trans hc.ge)
    · simp only [State.ringWindow, IoUringSq.count, hc, update_entry, Function.update_self,
        h.history, List.append_assoc]
      rw [show (s.sq.sqeTail - s.sq.khead).toNat = s.sq.count from rfl, window_push hr]
  · have hf := IoUringSq.getSqe_full h.wf (Nat.le_antisymm h.wf.count_le hr)
    simpa only [State.getSqe, hf] using h

theorem inv_fill {s : State} {j : ℕ} {e : Entry} (h : Inv s) (f : IoUringSqe → IoUringSqe)
    (he : s.unconsumed[j]? = some e) :
    Inv { s with
      sq := s.sq.modifySqe e.1 f
      handed := s.handed.set (s.consumed.length + j) (e.1, f e.2) } := by
  have hj : j < s.sq.count := by
    rw [← h.unconsumed_length]
    exact (List.getElem?_eq_some_iff.mp he).1
  rw [h.unconsumed, State.ringWindow, window_getElem? hj, Option.some.injEq] at he
  refine ⟨⟨h.wf.ring, h.wf.count_le⟩, h.published, ?_⟩
  simp only [State.ringWindow, IoUringSq.modifySqe, update_entry, h.history]
  rw [List.set_append_right _ _ (by omega), Nat.add_sub_cancel_left, ← he]
  exact congrArg _ (window_set h.wf.count_le hj _).symm

theorem fetch_eq_take {s : State} (h : s.sq.Wf) {n : ℕ} (hn : n ≤ s.sq.count) :
    s.fetch n = s.ringWindow.take n := by
  have hle := h.count_le
  have hent := h.ring.entries_le
  rw [State.ringWindow, ← window_take hn, State.fetch, window]
  refine List.map_congr_left fun j hj => ?_
  have hj : j < n := List.mem_range.mp hj
  simp only [h.ring.add_and_mask s.sq.khead (show j ≤ 2 ^ 31 by omega)]

theorem inv_consume {s : State} {n : ℕ} (h : Inv s) (hn : n ≤ (s.ktail - s.sq.khead).toNat) :
    Inv { s with sq := s.sq.kernelTake n, consumed := s.consumed ++ s.fetch n } := by
  have hn' : n ≤ s.sq.count := hn.trans h.published
  obtain ⟨hwf, hc, -⟩ := IoUringSq.kernelTake_spec h.wf hn'
  have hhead := IoUringSq.kernelTake_khead h.wf hn'
  have hdrop : window (fun i => (i, s.sq.sqes i)) s.sq.ringEntries.toNat
      (s.sq.kernelTake n).khead.toNat (s.sq.kernelTake n).count = s.ringWindow.drop n := by
    rw [hc, hhead, window_wrap h.wf.ring.dvd]
    exact window_drop hn'
  refine ⟨hwf, ?_, ?_⟩
  · have hp := h.published
    rw [UInt32.toNat_sub] at hn hp
    have hs := span_head s.sq.khead.toNat_lt s.ktail.toNat_lt (n := n) hn
    rw [hc, UInt32.toNat_sub, hhead]
    exact hs.trans_le (Nat.sub_le_sub_right hp n)
  · change s.handed = s.consumed ++ s.fetch n ++ window (fun i => (i, s.sq.sqes i))
      s.sq.ringEntries.toNat (s.sq.kernelTake n).khead.toNat (s.sq.kernelTake n).count
    rw [hdrop, fetch_eq_take h.wf hn', List.append_assoc, List.take_append_drop, h.history]

theorem inv_step {s t : State} {a : Action} (h : Inv s) (hs : Step s a t) : Inv t := by
  cases hs with
  | getSqe => exact inv_getSqe h
  | fill f he => exact inv_fill h f he
  | submit => exact ⟨h.wf, le_rfl, h.history⟩
  | consume hn => exact inv_consume h hn

theorem reachable_inv {s : State} (h : submissionRing.Reachable s) : Inv s :=
  h.invariant (fun _ => inv_init) (fun _ _ _ _ hi _ hs => inv_step hi hs)

/-- The safety of the submission ring in one state. -/
structure Safe (s : State) : Prop where
  bounded : (s.sq.sqeTail - s.sq.khead).toNat ≤ s.sq.ringEntries.toNat
  /-- unconsumed entries still stand in their slots -/
  intact : ∀ e ∈ s.unconsumed, e.1 < s.sq.ringEntries.toNat ∧ s.sq.sqes e.1 = e.2
  /-- a hand-out returns a slot of its own and writes no other -/
  fresh : ∀ idx sq, ioUringGetSqe s.sq = (.ok idx, sq) → idx < s.sq.ringEntries.toNat ∧
    ∀ e ∈ s.unconsumed, e.1 ≠ idx ∧ sq.sqes e.1 = e.2
  /-- the kernel has consumed the first entries handed out, in order -/
  ordered : s.consumed <+: s.handed
  unconsumed_length : s.unconsumed.length = (s.sq.sqeTail - s.sq.khead).toNat
  fails_iff : (∃ e, (ioUringGetSqe s.sq).1 = .error e) ↔
    s.unconsumed.length = s.sq.ringEntries.toNat
  fails_unchanged : ∀ e, (ioUringGetSqe s.sq).1 = .error e → (ioUringGetSqe s.sq).2 = s.sq

theorem Inv.slot_ne_next {s : State} (h : Inv s) (hr : s.sq.count < s.sq.ringEntries.toNat)
    {e : Entry} (he : e ∈ s.unconsumed) :
    e.1 ≠ (s.sq.khead.toNat + s.sq.count) % s.sq.ringEntries.toNat := by
  rw [h.unconsumed, State.ringWindow, mem_window] at he
  obtain ⟨i, hi, rfl⟩ := he
  intro hslot
  have := slot_inj (hi.trans hr) hr hslot
  omega

theorem Inv.intact {s : State} (h : Inv s) {e : Entry} (he : e ∈ s.unconsumed) :
    e.1 < s.sq.ringEntries.toNat ∧ s.sq.sqes e.1 = e.2 := by
  rw [h.unconsumed, State.ringWindow, mem_window] at he
  obtain ⟨i, -, rfl⟩ := he
  exact ⟨Nat.mod_lt _ h.wf.ring.entries_pos, rfl⟩

theorem Inv.safe {s : State} (h : Inv s) : Safe s := by
  rcases Nat.lt_or_ge s.sq.count s.sq.ringEntries.toNat with hr | hr
  · have hg := IoUringSq.getSqe_room h.wf hr
    refine ⟨h.wf.count_le, fun e => h.intact, ?_, ⟨_, h.history.symm⟩, h.unconsumed_length, ?_, ?_⟩
    · intro idx sq he
      rw [hg] at he
      simp only [Prod.mk.injEq, Except.ok.injEq] at he
      obtain ⟨rfl, rfl⟩ := he
      refine ⟨Nat.mod_lt _ h.wf.ring.entries_pos, fun e he => ⟨h.slot_ne_next hr he, ?_⟩⟩
      exact (Function.update_of_ne (h.slot_ne_next hr he) ..).trans (h.intact he).2
    · rw [h.unconsumed_length, hg]
      simp [hr.ne]
    · simp [hg]
  · have hfull := Nat.le_antisymm h.wf.count_le hr
    have hf := IoUringSq.getSqe_full h.wf hfull
    refine ⟨h.wf.count_le, fun e => h.intact, ?_, ⟨_, h.history.symm⟩, h.unconsumed_length, ?_, ?_⟩
    · simp [hf]
    · rw [h.unconsumed_length, hf]
      simp [hfull]
    · simp [hf]

/-- Every state that any interleaving reaches is safe. -/
theorem submission_ring_safe {s : State} (h : submissionRing.Reachable s) : Safe s :=
  (reachable_inv h).safe

def nearWrap : State where
  sq := { khead := 0xFFFFFFFF, sqeTail := 0xFFFFFFFF, ringMask := 1, ringEntries := 2,
          sqes := fun _ => default }
  ktail := 0xFFFFFFFF
  handed := []
  consumed := []

theorem nearWrap_init : Init nearWrap :=
  ⟨⟨⟨1, by decide, rfl⟩, rfl⟩, rfl, rfl, rfl, rfl⟩

/-- Across the wrap: two entries handed out, one consumed. -/
theorem submission_ring_safe_wrap : ∃ s : State,
    s.sq.khead = 0 ∧ s.sq.sqeTail = 1 ∧ s.consumed.map Prod.fst = [1] ∧
      s.handed.map Prod.fst = [1, 0] ∧ Safe s := by
  have h₀ : submissionRing.Reachable nearWrap := .start nearWrap_init
  have h₁ := (h₀.next trivial (.getSqe _)).next trivial (.getSqe _)
  have h₂ := h₁.next trivial (.submit _)
  have h₃ := h₂.next trivial (.consume (n := 1) (by decide))
  exact ⟨_, by decide, by decide, by decide, by decide, submission_ring_safe h₃⟩

end UringWs.SubmissionQueue
