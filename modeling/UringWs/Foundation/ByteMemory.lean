import Mathlib.Data.List.Basic

/-! # Flat memory

A memory is a total map from addresses to cells. A block is a run of cells;
storing to one block leaves every block disjoint from it as it was.
-/
namespace UringWs.ByteMemory
variable {β : Type*}

def load (mem : ℕ → β) (addr n : ℕ) : List β := (List.range n).map fun i => mem (addr + i)

def store (mem : ℕ → β) (addr : ℕ) (data : List β) : ℕ → β :=
  fun a => if addr ≤ a then data.getD (a - addr) (mem a) else mem a

@[simp] theorem load_length (mem : ℕ → β) (addr n : ℕ) : (load mem addr n).length = n := by
  simp [load]

theorem load_drop (mem : ℕ → β) (addr m n : ℕ) :
    (load mem addr n).drop m = load mem (addr + m) (n - m) := by
  apply List.ext_getElem?
  intro i
  simp only [load, List.getElem?_drop, List.getElem?_map]
  by_cases hi : i < n - m
  · rw [List.getElem?_range hi, List.getElem?_range (by omega)]
    simp [Nat.add_assoc]
  · rw [List.getElem?_eq_none (by simp; omega), List.getElem?_eq_none (by simp; omega)]
    rfl

theorem store_of_lt {mem : ℕ → β} {addr a : ℕ} {data : List β} (h : a < addr) :
    store mem addr data a = mem a := if_neg (by omega)

theorem store_of_ge {mem : ℕ → β} {addr a : ℕ} {data : List β} (h : addr + data.length ≤ a) :
    store mem addr data a = mem a := by
  unfold store
  split
  · rw [List.getD_eq_getElem?_getD, List.getElem?_eq_none (by omega), Option.getD_none]
  · rfl

theorem load_store (mem : ℕ → β) (addr : ℕ) (data : List β) :
    load (store mem addr data) addr data.length = data := by
  apply List.ext_getElem (load_length ..)
  intro i hi hi'
  simp [load, store, hi']

/-- A store leaves the blocks it does not touch. -/
theorem load_store_disjoint {mem : ℕ → β} {addr addr' n : ℕ} {data : List β}
    (h : addr' + n ≤ addr ∨ addr + data.length ≤ addr') :
    load (store mem addr data) addr' n = load mem addr' n := by
  refine List.map_congr_left fun i hi => ?_
  have hi := List.mem_range.mp hi
  rcases h with h | h
  · exact store_of_lt (by omega)
  · exact store_of_ge (by omega)

theorem store_load (mem : ℕ → β) (addr n : ℕ) : store mem addr (load mem addr n) = mem := by
  funext a
  by_cases ha : addr ≤ a ∧ a - addr < n
  · have hoff : addr + (a - addr) = a := Nat.add_sub_cancel' ha.1
    simp [store, load, ha.1, ha.2, hoff]
  · rcases Nat.lt_or_ge a addr with hlt | hle
    · exact store_of_lt hlt
    · refine store_of_ge ?_
      rw [load_length]
      omega

theorem store_outside {mem : ℕ → β} {addr a : ℕ} {data : List β}
    (h : ¬ (addr ≤ a ∧ a < addr + data.length)) : store mem addr data a = mem a := by
  rcases Nat.lt_or_ge a addr with hlt | hle
  · exact store_of_lt hlt
  · exact store_of_ge (by omega)

/-- What a store leaves in its own block depends on the stored data alone. -/
theorem store_inside {mem mem' : ℕ → β} {addr a : ℕ} {data : List β} (hle : addr ≤ a)
    (hlt : a < addr + data.length) : store mem addr data a = store mem' addr data a := by
  have hi : a - addr < data.length := by omega
  simp only [store, if_pos hle, List.getD_eq_getElem?_getD, List.getElem?_eq_getElem hi,
    Option.getD_some]

theorem store_comm {mem : ℕ → β} {addr addr' : ℕ} {data data' : List β}
    (h : addr + data.length ≤ addr' ∨ addr' + data'.length ≤ addr) :
    store (store mem addr data) addr' data' = store (store mem addr' data') addr data := by
  funext a
  by_cases ha : addr ≤ a ∧ a < addr + data.length
  · rw [store_outside (by omega), store_inside ha.1 ha.2]
  · rw [store_outside ha]
    by_cases ha' : addr' ≤ a ∧ a < addr' + data'.length
    · exact store_inside ha'.1 ha'.2
    · rw [store_outside ha', store_outside ha', store_outside ha]

/-- Of two stores to one block only the second is left. -/
theorem store_overwrite {mem : ℕ → β} {addr : ℕ} {data data' : List β}
    (h : data.length = data'.length) :
    store (store mem addr data) addr data' = store mem addr data' := by
  funext a
  by_cases ha : addr ≤ a ∧ a < addr + data'.length
  · exact store_inside ha.1 ha.2
  · rw [store_outside ha, store_outside ha, store_outside (by rwa [h])]

end UringWs.ByteMemory
