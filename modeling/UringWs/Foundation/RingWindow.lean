import Mathlib.Data.Nat.ModEq
import Mathlib.Data.List.Basic
import Mathlib.Logic.Function.Basic

/-! # Ring buffers with free-running counters

A ring of N slots is driven by a head and a tail counter that wrap at a word
size W, a multiple of N. The abstract queue it stands for is the window of
slots from the head over the wrapped difference of the counters.
-/
namespace UringWs.RingWindow
variable {α β : Type*}

/-- The wrapped difference of two counters below the word size. -/
def span (W head tail : ℕ) : ℕ := (W - head + tail) % W

theorem span_tail {W h t n : ℕ} (hroom : span W h t + n < W) :
    span W h ((t + n) % W) = span W h t + n := by
  have he : span W h ((t + n) % W) = (span W h t + n) % W := by
    rw [span, span, Nat.add_mod_mod, Nat.mod_add_mod, Nat.add_assoc]
  rw [he, Nat.mod_eq_of_lt hroom]

theorem span_of_le {W h t : ℕ} (hle : h ≤ t) (ht : t < W) : span W h t = t - h := by
  rw [span, show W - h + t = t - h + W by omega, Nat.add_mod_right, Nat.mod_eq_of_lt (by omega)]

theorem span_of_lt {W h t : ℕ} (hlt : t < h) (hh : h < W) : span W h t = W - h + t := by
  rw [span, Nat.mod_eq_of_lt (by omega)]

theorem span_head {W h t n : ℕ} (hh : h < W) (ht : t < W) (hn : n ≤ span W h t) :
    span W ((h + n) % W) t = span W h t - n := by
  rcases Nat.lt_or_ge t h with hlt | hle
  · rw [span_of_lt hlt hh] at *
    rcases Nat.lt_or_ge (h + n) W with hw | hw
    · rw [Nat.mod_eq_of_lt hw, span_of_lt (by omega) hw]
      omega
    · rw [Nat.mod_eq_sub_mod hw, Nat.mod_eq_of_lt (by omega), span_of_le (by omega) ht]
      omega
  · rw [span_of_le hle ht] at *
    rw [Nat.mod_eq_of_lt (show h + n < W by omega), span_of_le (by omega) ht]
    omega

/-- The tail's slot is the one that ends the window. -/
theorem head_add_span {W N h t : ℕ} (hN : N ∣ W) (hh : h < W) :
    (h + span W h t) % N = t % N := by
  rw [span, Nat.add_mod, Nat.mod_mod_of_dvd _ hN, ← Nat.add_mod, ← Nat.add_assoc,
    Nat.add_sub_cancel' hh.le, Nat.add_mod, Nat.mod_eq_zero_of_dvd hN, Nat.zero_add, Nat.mod_mod]

/-- A counter that wraps at a multiple of N still names its slot. -/
theorem wrapped_slot {W N : ℕ} (hN : N ∣ W) (c : ℕ) : c % W % N = c % N :=
  Nat.mod_mod_of_dvd c hN

theorem slot_inj {N h i j : ℕ} (hi : i < N) (hj : j < N) (he : (h + i) % N = (h + j) % N) :
    i = j := by
  have hm : h + i ≡ h + j [MOD N] := he
  exact (Nat.ModEq.add_left_cancel' h hm).eq_of_lt_of_lt hi hj

/-- The queue a ring stands for: n entries from the head on. -/
def window (slots : ℕ → α) (N h n : ℕ) : List α :=
  (List.range n).map fun i => slots ((h + i) % N)

@[simp] theorem window_length (slots : ℕ → α) (N h n : ℕ) : (window slots N h n).length = n := by
  simp [window]

@[simp] theorem window_zero (slots : ℕ → α) (N h : ℕ) : window slots N h 0 = [] := rfl

theorem window_getElem? {slots : ℕ → α} {N h n i : ℕ} (hi : i < n) :
    (window slots N h n)[i]? = some (slots ((h + i) % N)) := by
  simp [window, hi]

theorem mem_window {slots : ℕ → α} {N h n : ℕ} {a : α} :
    a ∈ window slots N h n ↔ ∃ i < n, slots ((h + i) % N) = a := by
  simp [window]

theorem window_map (f : α → β) (slots : ℕ → α) (N h n : ℕ) :
    (window slots N h n).map f = window (fun i => f (slots i)) N h n := by
  simp [window]

theorem window_succ (slots : ℕ → α) (N h n : ℕ) :
    window slots N h (n + 1) = slots (h % N) :: window slots N (h + 1) n := by
  simp only [window, List.range_succ_eq_map, List.map_cons, List.map_map, Nat.add_zero]
  refine congrArg _ (List.map_congr_left fun i _ => ?_)
  simp only [Function.comp_apply, Nat.succ_eq_add_one]
  rw [show h + (i + 1) = h + 1 + i by omega]

theorem window_snoc (slots : ℕ → α) (N h n : ℕ) :
    window slots N h (n + 1) = window slots N h n ++ [slots ((h + n) % N)] := by
  simp [window, List.range_succ]

theorem window_append (slots : ℕ → α) (N h m n : ℕ) :
    window slots N h (m + n) = window slots N h m ++ window slots N (h + m) n := by
  simp [window, List.range_add, Nat.add_assoc, Function.comp_def]

/-- A head that wraps at a multiple of N keeps the queue. -/
theorem window_wrap {W N : ℕ} (hN : N ∣ W) (slots : ℕ → α) (h n : ℕ) :
    window slots N (h % W) n = window slots N h n := by
  refine List.map_congr_left fun i _ => ?_
  rw [Nat.add_mod, wrapped_slot hN, ← Nat.add_mod]

theorem window_congr {slots slots' : ℕ → α} {N h n : ℕ}
    (he : ∀ i < n, slots ((h + i) % N) = slots' ((h + i) % N)) :
    window slots N h n = window slots' N h n :=
  List.map_congr_left fun i hi => he i (List.mem_range.mp hi)

theorem window_update {slots : ℕ → α} {N h n : ℕ} (hn : n < N) (a : α) :
    window (Function.update slots ((h + n) % N) a) N h n = window slots N h n := by
  refine window_congr fun i hi => Function.update_of_ne ?_ _ _
  intro he
  have := slot_inj (hi.trans hn) hn he
  omega

theorem window_set {slots : ℕ → α} {N h n j : ℕ} (hn : n ≤ N) (hj : j < n) (a : α) :
    window (Function.update slots ((h + j) % N) a) N h n = (window slots N h n).set j a := by
  apply List.ext_getElem (by simp)
  intro i hi _
  rw [window_length] at hi
  simp only [window, List.getElem_map, List.getElem_range, List.getElem_set, Function.update_apply]
  by_cases he : j = i
  · simp [he]
  · rw [if_neg he, if_neg]
    exact fun h' => he (slot_inj (by omega) (by omega) h').symm

/-- Writing at the tail of a ring that is not full enqueues. -/
theorem window_push {slots : ℕ → α} {N h n : ℕ} (hn : n < N) (a : α) :
    window (Function.update slots ((h + n) % N) a) N h (n + 1) = window slots N h n ++ [a] := by
  rw [window_snoc, window_update hn, Function.update_self]

theorem window_drop {slots : ℕ → α} {N h m n : ℕ} (hm : m ≤ n) :
    window slots N (h + m) (n - m) = (window slots N h n).drop m := by
  obtain ⟨k, rfl⟩ := Nat.exists_eq_add_of_le hm
  rw [window_append, Nat.add_sub_cancel_left, List.drop_left' (window_length ..)]

theorem window_take {slots : ℕ → α} {N h m n : ℕ} (hm : m ≤ n) :
    window slots N h m = (window slots N h n).take m := by
  obtain ⟨k, rfl⟩ := Nat.exists_eq_add_of_le hm
  rw [window_append, List.take_left' (window_length ..)]

/-! ### Rings indexed by masking a 32-bit counter -/

/-- A power-of-two number of entries, and the mask that goes with it. -/
structure MaskedRing (entries mask : UInt32) : Prop where
  size : ∃ k ≤ 31, entries.toNat = 2 ^ k
  mask_eq : mask = entries - 1

namespace MaskedRing
variable {entries mask : UInt32}

theorem dvd (h : MaskedRing entries mask) : entries.toNat ∣ 2 ^ 32 := by
  obtain ⟨k, hk, he⟩ := h.size
  rw [he]
  exact Nat.pow_dvd_pow 2 (by omega)

theorem entries_le (h : MaskedRing entries mask) : entries.toNat ≤ 2 ^ 31 := by
  obtain ⟨k, hk, he⟩ := h.size
  rw [he]
  exact Nat.pow_le_pow_right (by decide) hk

theorem entries_pos (h : MaskedRing entries mask) : 0 < entries.toNat := by
  obtain ⟨k, _, he⟩ := h.size
  rw [he]
  exact Nat.two_pow_pos k

theorem and_mask (h : MaskedRing entries mask) (c : UInt32) :
    (c &&& mask).toNat = c.toNat % entries.toNat := by
  obtain ⟨k, hk, he⟩ := h.size
  have h1 : (1 : UInt32) ≤ entries := UInt32.le_iff_toNat_le.mpr h.entries_pos
  have hmask : mask.toNat = 2 ^ k - 1 := by
    rw [h.mask_eq, UInt32.toNat_sub_of_le _ _ h1, he]
    rfl
  rw [UInt32.toNat_and, hmask, Nat.and_two_pow_sub_one_eq_mod, he]

theorem add_and_mask (h : MaskedRing entries mask) (c : UInt32) {j : ℕ} (hj : j ≤ 2 ^ 31) :
    ((c + UInt32.ofNat j) &&& mask).toNat = (c.toNat + j) % entries.toNat := by
  rw [h.and_mask, UInt32.toNat_add, UInt32.toNat_ofNat_of_lt' (show j < 4294967296 by omega),
    wrapped_slot h.dvd]

end MaskedRing
end UringWs.RingWindow
