import Mathlib.Data.List.Perm.Basic
import Mathlib.Logic.Function.Basic

/-! # Entries of lists and tables

Removing the entry at an index from a list, and setting one entry of a table.
-/
namespace UringWs
variable {α β : Type*}

theorem perm_cons_eraseIdx {l : List α} {k : ℕ} {a : α} (h : l[k]? = some a) :
    l.Perm (a :: l.eraseIdx k) := by
  obtain ⟨hlt, rfl⟩ := List.getElem?_eq_some_iff.mp h
  exact (List.getElem_cons_eraseIdx_perm hlt).symm

theorem filter_eraseIdx_of_false {l : List α} {k : ℕ} {a : α} {p : α → Bool}
    (h : l[k]? = some a) (ha : p a = false) : (l.eraseIdx k).filter p = l.filter p := by
  obtain ⟨hlt, rfl⟩ := List.getElem?_eq_some_iff.mp h
  conv_rhs => rw [← List.take_append_drop k l, List.drop_eq_getElem_cons hlt]
  rw [List.eraseIdx_eq_take_drop_succ, List.filter_append, List.filter_append,
    List.filter_cons_of_neg (by simp [ha])]

theorem filterMap_eraseIdx_of_none {l : List α} {k : ℕ} {a : α} {f : α → Option β}
    (h : l[k]? = some a) (ha : f a = none) : (l.eraseIdx k).filterMap f = l.filterMap f := by
  obtain ⟨hlt, rfl⟩ := List.getElem?_eq_some_iff.mp h
  conv_rhs => rw [← List.take_append_drop k l, List.drop_eq_getElem_cons hlt]
  rw [List.eraseIdx_eq_take_drop_succ, List.filterMap_append, List.filterMap_append,
    List.filterMap_cons_none ha]

/-- Removing the first entry that contributes to a selection. -/
theorem filterMap_eq_cons_eraseIdx {l : List α} {k : ℕ} {a : α} {b : β} {f : α → Option β}
    (h : l[k]? = some a) (ha : f a = some b)
    (hfirst : ∀ j < k, ∀ e, l[j]? = some e → f e = none) :
    l.filterMap f = b :: (l.eraseIdx k).filterMap f := by
  obtain ⟨hlt, rfl⟩ := List.getElem?_eq_some_iff.mp h
  have hnil : (l.take k).filterMap f = [] := by
    refine List.filterMap_eq_nil_iff.mpr fun e he => ?_
    obtain ⟨j, hj, he⟩ := List.mem_take_iff_getElem.mp he
    exact hfirst j (by omega) e (List.getElem?_eq_some_iff.mpr ⟨by omega, he⟩)
  conv_lhs => rw [← List.take_append_drop k l, List.drop_eq_getElem_cons hlt]
  rw [List.eraseIdx_eq_take_drop_succ, List.filterMap_append, List.filterMap_append, hnil,
    List.filterMap_cons_some ha]
  rfl

theorem two_le_length_filterMap {l : List α} {j k : ℕ} {a b : α} {f : α → Option β} (hjk : j < k)
    (hj : l[j]? = some a) (hk : l[k]? = some b) (ha : f a ≠ none) (hb : f b ≠ none) :
    2 ≤ (l.filterMap f).length := by
  obtain ⟨c, hc⟩ := Option.ne_none_iff_exists'.mp ha
  obtain ⟨d, hd⟩ := Option.ne_none_iff_exists'.mp hb
  have hp := (perm_cons_eraseIdx hk).filterMap f
  rw [List.filterMap_cons_some hd] at hp
  have hmem : c ∈ (l.eraseIdx k).filterMap f :=
    List.mem_filterMap.mpr ⟨a, List.mem_of_getElem? (by rwa [List.getElem?_eraseIdx_of_lt hjk]), hc⟩
  rw [hp.length_eq, List.length_cons]
  have := List.length_pos_of_mem hmem
  omega

theorem filter_perm_cons_eraseIdx {l : List α} {k : ℕ} {a : α} {p : α → Bool}
    (h : l[k]? = some a) (ha : p a = true) :
    (l.filter p).Perm (a :: (l.eraseIdx k).filter p) := by
  have hp := (perm_cons_eraseIdx h).filter p
  rwa [List.filter_cons_of_pos ha] at hp

theorem countP_eraseIdx {l : List α} {k : ℕ} {a : α} (h : l[k]? = some a) (p : α → Bool) :
    l.countP p = (l.eraseIdx k).countP p + if p a = true then 1 else 0 := by
  rw [(perm_cons_eraseIdx h).countP_eq p, List.countP_cons]

theorem update_eq_some [DecidableEq α] {f : α → Option β} {a a' : α} {b b' : β}
    (h : Function.update f a (some b) a' = some b') :
    (a' = a ∧ b = b') ∨ (a' ≠ a ∧ f a' = some b') := by
  by_cases he : a' = a
  · exact .inl ⟨he, by simpa [he] using h⟩
  · exact .inr ⟨he, by simpa [he] using h⟩

/-- Setting an entry to one that agrees with it in a feature. -/
theorem update_agree [DecidableEq α] {γ : Type*} {f : α → Option β} {a : α} {b b' : β}
    (F : β → γ) (ha : f a = some b) (hF : F b' = F b) {x : α} {c : β}
    (h : Function.update f a (some b') x = some c) : ∃ d, f x = some d ∧ F c = F d := by
  rcases update_eq_some h with ⟨rfl, rfl⟩ | ⟨-, h⟩
  · exact ⟨b, ha, hF⟩
  · exact ⟨c, h, rfl⟩

/-- Entries told apart by a feature still are when one is set to one of its feature. -/
theorem update_keeps_separate [DecidableEq α] {γ : Type*} {f : α → Option β} {a : α} {b b' : β}
    (F : β → γ) (hf : ∀ x y c d, f x = some c → f y = some d → F c = F d → x = y)
    (ha : f a = some b) (hF : F b' = F b) (x y : α) (c d : β)
    (hx : Function.update f a (some b') x = some c) (hy : Function.update f a (some b') y = some d)
    (he : F c = F d) : x = y := by
  obtain ⟨c', hc, hcc⟩ := update_agree F ha hF hx
  obtain ⟨d', hd, hdd⟩ := update_agree F ha hF hy
  exact hf x y c' d' hc hd (hcc.symm.trans (he.trans hdd))

/-- Entries told apart by a feature still are when one with a new feature is set. -/
theorem update_separates [DecidableEq α] {γ : Type*} {f : α → Option β} {a : α} {b : β}
    (F : β → γ) (hf : ∀ x y c d, f x = some c → f y = some d → F c = F d → x = y)
    (hb : ∀ x c, f x = some c → F c ≠ F b) (x y : α) (c d : β)
    (hx : Function.update f a (some b) x = some c) (hy : Function.update f a (some b) y = some d)
    (he : F c = F d) : x = y := by
  rcases update_eq_some hx with ⟨rfl, rfl⟩ | ⟨-, hx'⟩ <;>
    rcases update_eq_some hy with ⟨rfl, rfl⟩ | ⟨-, hy'⟩
  · rfl
  · exact absurd he.symm (hb y d hy')
  · exact absurd he (hb x c hx')
  · exact hf x y c d hx' hy' he

theorem getElem?_concat_eq_some {l : List α} {i : ℕ} {a b : α} (h : (l ++ [a])[i]? = some b) :
    (i < l.length ∧ l[i]? = some b) ∨ (i = l.length ∧ b = a) := by
  rcases Nat.lt_trichotomy i l.length with hi | rfl | hi
  · exact .inl ⟨hi, by rwa [List.getElem?_append_left hi] at h⟩
  · rw [List.getElem?_concat_length] at h
    exact .inr ⟨rfl, (Option.some.inj h).symm⟩
  · have hlen := (List.getElem?_eq_some_iff.mp h).1
    rw [List.length_append, List.length_singleton] at hlen
    omega

theorem getElem?_set_eq_some {l : List α} {i j : ℕ} {a b : α} (h : (l.set i a)[j]? = some b) :
    (j = i ∧ b = a) ∨ (j ≠ i ∧ l[j]? = some b) := by
  by_cases he : j = i
  · subst he
    obtain ⟨hlt, rfl⟩ := List.getElem?_eq_some_iff.mp h
    exact .inl ⟨rfl, by simp⟩
  · exact .inr ⟨he, by rwa [List.getElem?_set_ne (Ne.symm he)] at h⟩

/-- Replacing an entry by one that agrees with it in a feature. -/
theorem getElem?_set_agree {γ : Type*} {l : List α} {i : ℕ} {a b : α} (f : α → γ)
    (ha : l[i]? = some a) (hf : f b = f a) :
    ∀ (j : ℕ) (c : α), (l.set i b)[j]? = some c → ∃ d, l[j]? = some d ∧ f c = f d := by
  intro j c hc
  rcases getElem?_set_eq_some hc with ⟨rfl, rfl⟩ | ⟨-, hc⟩
  · exact ⟨a, ha, hf⟩
  · exact ⟨c, hc, rfl⟩

theorem getElem?_set_keep {γ : Type*} {l : List α} {i j : ℕ} {a b c : α} (f : α → γ)
    (ha : l[i]? = some a) (hf : f b = f a) (hc : l[j]? = some c) :
    ∃ d, (l.set i b)[j]? = some d ∧ f d = f c := by
  by_cases hij : i = j
  · subst hij
    obtain rfl : a = c := Option.some.inj (ha.symm.trans hc)
    exact ⟨b, List.getElem?_set_self (List.getElem?_eq_some_iff.mp ha).1, hf⟩
  · exact ⟨c, (List.getElem?_set_ne hij).trans hc, rfl⟩

end UringWs
