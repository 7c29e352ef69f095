import UringWs.Foundation.Transition
import Mathlib.Data.List.Basic

/-! # A byte queue made of chunks

Chunks are queued whole. A read takes from the first chunk only, and removes it
once nothing of it is left; across reads the order of all elements is kept.
-/
namespace UringWs.ChunkQueue
variable {β : Type*} {q : List (List β)} {n : ℕ}

/-- The elements read, at most so many, and the chunks left. -/
def read (n : ℕ) : List (List β) → List β × List (List β)
  | [] => ([], [])
  | c :: cs => (c.take n, if c.length ≤ n then cs else c.drop n :: cs)

theorem read_cons_of_le {c : List β} {cs : List (List β)} (h : c.length ≤ n) :
    read n (c :: cs) = (c, cs) := by
  rw [read, if_pos h, List.take_of_length_le h]

theorem read_cons_of_lt {c : List β} {cs : List (List β)} (h : n < c.length) :
    read n (c :: cs) = (c.take n, c.drop n :: cs) := by
  rw [read, if_neg (Nat.not_le.mpr h)]

/-- A read splits the queue's elements. -/
theorem read_flatten (n : ℕ) (q : List (List β)) :
    (read n q).1 ++ (read n q).2.flatten = q.flatten := by
  cases q with
  | nil => rfl
  | cons c cs =>
    rcases Nat.lt_or_ge n c.length with h | h
    · rw [read_cons_of_lt h, List.flatten_cons, ← List.append_assoc, List.take_append_drop,
        List.flatten_cons]
    · rw [read_cons_of_le h, List.flatten_cons]

theorem read_length (n : ℕ) (c : List β) (cs : List (List β)) :
    (read n (c :: cs)).1.length = min n c.length := List.length_take ..

/-- What is read is what the queue began with, and what is left is the rest. -/
theorem read_eq_take_drop (n : ℕ) (c : List β) (cs : List (List β)) :
    (read n (c :: cs)).1 = (c :: cs).flatten.take (min n c.length) ∧
      (read n (c :: cs)).2.flatten = (c :: cs).flatten.drop (min n c.length) := by
  have hsplit := read_flatten n (c :: cs)
  rw [← read_length n c cs, ← hsplit]
  exact ⟨List.take_left.symm, List.drop_left.symm⟩

theorem flatten_eq_nil_iff (h : ∀ c ∈ q, c ≠ []) : q.flatten = [] ↔ q = [] := by
  rw [List.flatten_eq_nil_iff]
  refine ⟨fun hall => List.eq_nil_iff_forall_not_mem.mpr fun c hc => h c hc (hall c hc), ?_⟩
  rintro rfl c hc
  exact absurd hc List.not_mem_nil

theorem read_nonempty (h : ∀ c ∈ q, c ≠ []) : ∀ c ∈ (read n q).2, c ≠ [] := by
  cases q with
  | nil => exact h
  | cons d ds =>
    intro c hc
    rcases Nat.lt_or_ge n d.length with hlt | hle
    · rw [read_cons_of_lt hlt] at hc
      rcases List.mem_cons.mp hc with rfl | hc
      · exact List.ne_nil_of_length_pos (by rw [List.length_drop]; omega)
      · exact h c (List.mem_cons_of_mem _ hc)
    · rw [read_cons_of_le hle] at hc
      exact h c (List.mem_cons_of_mem _ hc)

inductive Action (β : Type*)
  | push (c : List β)
  | read (n : ℕ)

inductive Step : List (List β) → Action β → List (List β) → Prop
  | push {q : List (List β)} {c : List β} (hc : c ≠ []) : Step q (.push c) (q ++ [c])
  | read (q : List (List β)) (n : ℕ) : Step q (.read n) (read n q).2

def chunkQueue : System (List (List β)) (Action β) := { init := (· = []), step := Step }

/-- No empty chunk is ever queued. -/
theorem reach_nonempty (h : chunkQueue.Reachable q) : ∀ c ∈ q, c ≠ [] := by
  refine h.invariant (P := fun q => ∀ c ∈ q, c ≠ []) ?_ fun q a q' _ ih _ hs => ?_
  · rintro q rfl c hc
    exact absurd hc List.not_mem_nil
  · cases hs with
    | push hc =>
      intro c hmem
      rcases List.mem_append.mp hmem with hmem | hmem
      · exact ih c hmem
      · rwa [List.mem_singleton.mp hmem]
    | read n => exact read_nonempty ih

end UringWs.ChunkQueue
