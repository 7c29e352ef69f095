import UringWs.System.ReadQueue

/-! # The guard against reallocation

A push is meant to stop the program when the deque is full, so that the deque
never grows. The guard runs after the deque has grown, and never stops a push.
-/
namespace UringWs.ReadQueue
open Checked

def run (s : State) (ops : List Op) : Except Fault State := ops.foldlM State.apply s

def fresh (capacity : ℕ) (mem : Memory) : State := { reader := .new capacity, mem }

/-- What the guard is for, along one sequence of pushes and reads. -/
structure GuardWorks (capacity : ℕ) (mem : Memory) (ops : List Op) : Prop where
  /-- a push onto a full queue stops the program -/
  refuses : ∀ done buf, done ++ [.push buf] <+: ops → ∀ s, run (fresh capacity mem) done = .ok s →
    s.reader.bufVec.items.length = capacity → s.reader.push buf = .error .reallocated
  /-- no other push does -/
  accepts : ∀ done buf, done ++ [.push buf] <+: ops → ∀ s, run (fresh capacity mem) done = .ok s →
    s.reader.bufVec.items.length ≠ capacity → ∃ reader, s.reader.push buf = .ok reader
  capacity_eq : ∀ done, done <+: ops → ∀ s, run (fresh capacity mem) done = .ok s →
    s.reader.bufVec.capacity = capacity

/-- No push finds the queue holding as many buffers as it was made for. -/
def NeverFull (capacity : ℕ) (mem : Memory) (ops : List Op) : Prop :=
  ∀ done buf, done ++ [.push buf] <+: ops → ∀ s, run (fresh capacity mem) done = .ok s →
    s.reader.bufVec.items.length ≠ capacity

variable {s s' : State}

theorem run_concat {ops : List Op} {o : Op} :
    run s (ops ++ [o]) = .ok s' ↔ ∃ t, run s ops = .ok t ∧ t.apply o = .ok s' := by
  simp [run]

/-- Only a push onto a full deque changes the capacity. -/
theorem apply_capacity {o : Op} (h : s.apply o = .ok s')
    (hfull : ∀ buf, o = .push buf → s.reader.bufVec.items.length ≠ s.reader.bufVec.capacity) :
    s'.reader.bufVec.capacity = s.reader.bufVec.capacity := by
  cases o with
  | push buf =>
    simp only [State.apply, bind_eq_ok, Except.ok.injEq] at h
    obtain ⟨reader, hpush, rfl⟩ := h
    rw [KernelBufferVecReader.push_bufVec hpush]
    exact VecDeque.pushBack_capacity (hfull buf rfl) _
  | read dest =>
    simp only [State.apply, bind_eq_ok, Prod.exists, Except.ok.injEq] at h
    obtain ⟨n, dest', reader, mem, hread, rfl⟩ := h
    rcases KernelBufferVecReader.read_cases hread with
      ⟨-, -, rfl, -⟩ | ⟨v, vs, -, -, ⟨-, -, -, -, rfl, -⟩ | ⟨-, -, -, rfl, -⟩⟩
    · rfl
    · rfl
    · rfl

/-- The capacity is kept as long as no push finds the deque full. -/
theorem run_capacity {capacity : ℕ} {mem : Memory} {ops : List Op}
    (hfull : NeverFull capacity mem ops) (h : run (fresh capacity mem) ops = .ok s) :
    s.reader.bufVec.capacity = capacity := by
  induction ops using List.reverseRecOn generalizing s with
  | nil =>
    obtain rfl := Except.ok.inj h
    rfl
  | append_singleton ops o ih =>
    obtain ⟨t, ht, ho⟩ := run_concat.mp h
    have hcap := ih (fun done buf hp => hfull done buf (hp.trans (List.prefix_append _ _))) ht
    rw [apply_capacity ho, hcap]
    rintro buf rfl
    rw [hcap]
    exact hfull ops buf List.prefix_rfl t ht

/-- The guard works exactly on the runs in which it is never needed. -/
theorem guard_works_iff (capacity : ℕ) (mem : Memory) (ops : List Op) :
    GuardWorks capacity mem ops ↔ NeverFull capacity mem ops := by
  constructor
  · intro h done buf hp s hs hfull
    obtain ⟨reader, hpush⟩ := s.reader.push_isOk buf
    rw [h.refuses done buf hp s hs hfull] at hpush
    cases hpush
  · intro h
    refine ⟨fun done buf hp s hs hfull => absurd hfull (h done buf hp s hs),
      fun done buf _ s _ _ => s.reader.push_isOk buf, fun done hp s hs => ?_⟩
    exact run_capacity (fun done' buf hp' => h done' buf (hp'.trans hp)) hs

/-- A second push onto a queue made for one buffer: it is accepted, and the deque grows. -/
theorem push_grows :
    (∃ s, run (fresh 1 EventLoop.start.mem) [.push pair, .push pair] = .ok s ∧
      s.reader.bufVec.items.length = 2 ∧ s.reader.bufVec.capacity = 4) ∧
    ¬ GuardWorks 1 EventLoop.start.mem [.push pair, .push pair] := by
  refine ⟨⟨_, rfl, rfl, rfl⟩, fun h => ?_⟩
  have hcap := h.capacity_eq _ List.prefix_rfl _ rfl
  exact absurd hcap (by decide)

end UringWs.ReadQueue
