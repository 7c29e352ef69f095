import Mathlib.Data.List.Basic
import Mathlib.Algebra.BigOperators.Group.List.Basic
import Mathlib.Algebra.Ring.Nat

/-! # Codes read from a stream

The words of a code are not proper prefixes of one another, so a decoder that is
given a growing prefix of a stream of words finds each word as soon as it is
complete, and not before.
-/
namespace UringWs
variable {M β : Type*}

structure PrefixCode (M β : Type*) where
  encode : M → List β
  decode : List β → Option (M × List β)
  decode_encode : ∀ m rest, decode (encode m ++ rest) = some (m, rest)
  decode_partial : ∀ m p, p <+: encode m → p ≠ encode m → decode p = none
  decode_nil : decode [] = none

namespace PrefixCode
variable (c : PrefixCode M β) {ms ms' : List M} {p : List β} {n n' : ℕ}

def encodeAll (ms : List M) : List β := ms.flatMap c.encode

/-- The number of messages whose words end within the first n symbols. -/
def completeCount : List M → ℕ → ℕ
  | [], _ => 0
  | m :: ms, n =>
    if (c.encode m).length ≤ n then completeCount ms (n - (c.encode m).length) + 1 else 0

@[simp] theorem encodeAll_nil : c.encodeAll [] = [] := rfl

theorem encodeAll_cons (m : M) (ms : List M) :
    c.encodeAll (m :: ms) = c.encode m ++ c.encodeAll ms := List.flatMap_cons ..

theorem encodeAll_append (ms ms' : List M) :
    c.encodeAll (ms ++ ms') = c.encodeAll ms ++ c.encodeAll ms' := List.flatMap_append

theorem completeCount_of_le {m : M} (h : (c.encode m).length ≤ n) :
    c.completeCount (m :: ms) n = c.completeCount ms (n - (c.encode m).length) + 1 := if_pos h

theorem completeCount_of_lt {m : M} (h : n < (c.encode m).length) :
    c.completeCount (m :: ms) n = 0 := if_neg (Nat.not_le.mpr h)

theorem completeCount_append (ms ms' : List M) (n : ℕ) :
    c.completeCount (ms ++ ms') ((c.encodeAll ms).length + n) =
      ms.length + c.completeCount ms' n := by
  induction ms with
  | nil => simp
  | cons m ms ih =>
    have hle : (c.encode m).length ≤ (c.encodeAll (m :: ms)).length + n := by
      rw [encodeAll_cons, List.length_append]
      omega
    have hsub : (c.encodeAll (m :: ms)).length + n - (c.encode m).length =
        (c.encodeAll ms).length + n := by
      rw [encodeAll_cons, List.length_append]
      omega
    rw [List.cons_append, c.completeCount_of_le hle, hsub, ih, List.length_cons]
    omega

/-- A prefix of a stream either contains its first word or is a proper prefix of it. -/
theorem first_word {m : M} (h : p <+: c.encodeAll (m :: ms)) :
    (∃ r, p = c.encode m ++ r ∧ (c.encode m).length ≤ p.length) ∨
      p <+: c.encode m ∧ p.length < (c.encode m).length := by
  rw [encodeAll_cons] at h
  rcases Nat.lt_or_ge p.length (c.encode m).length with hlt | hle
  · exact .inr ⟨List.prefix_of_prefix_length_le h (List.prefix_append _ _)
      (Nat.le_of_lt hlt), hlt⟩
  · obtain ⟨r, hr⟩ := List.prefix_of_prefix_length_le (List.prefix_append _ _) h hle
    exact .inl ⟨r, hr.symm, hle⟩

theorem decode_none_of_lt {m : M} (hp : p <+: c.encode m) (hlt : p.length < (c.encode m).length) :
    c.decode p = none := by
  refine c.decode_partial m p hp fun he => ?_
  rw [he] at hlt
  exact Nat.lt_irrefl _ hlt

/-- The decoder finds nothing exactly when no word is complete. -/
theorem decode_eq_none_iff (hp : p <+: c.encodeAll ms) :
    c.decode p = none ↔ c.completeCount ms p.length = 0 := by
  cases ms with
  | nil =>
    obtain rfl := List.prefix_nil.mp hp
    exact ⟨fun _ => rfl, fun _ => c.decode_nil⟩
  | cons m ms =>
    rcases c.first_word hp with ⟨r, hr, hle⟩ | ⟨hp, hlt⟩
    · rw [c.completeCount_of_le hle]
      refine ⟨fun h => ?_, fun h => absurd h (Nat.succ_ne_zero _)⟩
      rw [hr, c.decode_encode] at h
      cases h
    · rw [c.completeCount_of_lt hlt]
      exact ⟨fun _ => rfl, fun _ => c.decode_none_of_lt hp hlt⟩

theorem completeCount_zero (ms : List M) : c.completeCount ms 0 = 0 :=
  (c.decode_eq_none_iff List.nil_prefix).mp c.decode_nil

theorem decode_eq_some (hp : p <+: c.encodeAll ms) {m : M} {r : List β}
    (h : c.decode p = some (m, r)) : ∃ rest, ms = m :: rest ∧ p = c.encode m ++ r := by
  cases ms with
  | nil =>
    obtain rfl := List.prefix_nil.mp hp
    rw [c.decode_nil] at h
    cases h
  | cons m' ms =>
    rcases c.first_word hp with ⟨r', hr, -⟩ | ⟨hp, hlt⟩
    · rw [hr, c.decode_encode] at h
      obtain ⟨rfl, rfl⟩ := Prod.mk.inj (Option.some.inj h)
      exact ⟨ms, rfl, hr⟩
    · rw [c.decode_none_of_lt hp hlt] at h
      cases h

/-- Each chunk of a stream cut up from a position on ends at most one message. -/
def Spaced (ms : List M) : ℕ → List ℕ → Prop
  | _, [] => True
  | n, k :: ks => c.completeCount ms (n + k) ≤ c.completeCount ms n + 1 ∧ Spaced ms (n + k) ks

theorem spaced_append {ks : List ℕ} {k : ℕ} (h : c.Spaced ms n ks)
    (hk : c.completeCount ms (n + ks.sum + k) ≤ c.completeCount ms (n + ks.sum) + 1) :
    c.Spaced ms n (ks ++ [k]) := by
  induction ks generalizing n with
  | nil => exact ⟨hk, trivial⟩
  | cons j ks ih =>
    refine ⟨h.1, ih h.2 ?_⟩
    rwa [List.sum_cons, ← Nat.add_assoc] at hk

end PrefixCode
end UringWs
