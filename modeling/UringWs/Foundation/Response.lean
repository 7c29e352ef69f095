import UringWs.Foundation.Transition

/-! # Bounded response

A run is measured by the number of its steps of one kind; the other steps may be
interleaved at will. When every measured step lowers a bound and no other step
raises it, the goal is reached before the bound is used up.
-/
namespace UringWs.System
variable {σ α : Type*} {M : System σ α} {guard : σ → α → Prop} {counts : α → Prop} {s t : σ}
  {n : ℕ}

/-- Runs with the number of their counted steps. -/
inductive Counted (M : System σ α) (guard : σ → α → Prop) (counts : α → Prop) (s : σ) :
    ℕ → σ → Prop
  | refl : Counted M guard counts s 0 s
  | other {n : ℕ} {t u : σ} {a : α} (h : Counted M guard counts s n t) (hc : ¬ counts a)
      (hg : guard t a) (hs : M.step t a u) : Counted M guard counts s n u
  | count {n : ℕ} {t u : σ} {a : α} (h : Counted M guard counts s n t) (hc : counts a)
      (hg : guard t a) (hs : M.step t a u) : Counted M guard counts s (n + 1) u

theorem Counted.run (h : Counted M guard counts s n t) :
    Relation.ReflTransGen (M.Move guard) s t := by
  induction h with
  | refl => exact .refl
  | other _ _ hg hs ih => exact ih.tail ⟨_, hg, hs⟩
  | count _ _ hg hs ih => exact ih.tail ⟨_, hg, hs⟩

theorem Counted.reach (h : Counted M guard counts s n t) (hs : M.Reach guard s) :
    M.Reach guard t := hs.then h.run

/-- The response rule: the goal is reached and kept, or the counted steps made so
far are paid for by the bound. -/
theorem Counted.response {P Q : σ → Prop} (bound : σ → ℕ) (h : Counted M guard counts s n t)
    (hreach : M.Reach guard s) (hs : Q s ∨ P s)
    (hkeep : ∀ s a t, guard s a → M.step s a t → Q s → Q t)
    (hother : ∀ s a t, M.Reach guard s → P s → ¬ counts a → guard s a → M.step s a t →
      P t ∧ bound t ≤ bound s)
    (hcount : ∀ s a t, M.Reach guard s → P s → counts a → guard s a → M.step s a t →
      Q t ∨ P t ∧ bound t < bound s) :
    Q t ∨ P t ∧ n + bound t ≤ bound s := by
  induction h with
  | refl => exact hs.imp_right fun hp => ⟨hp, by omega⟩
  | @other n t u a h hc hg hstep ih =>
    rcases ih with hq | ⟨hp, hle⟩
    · exact .inl (hkeep _ _ _ hg hstep hq)
    · obtain ⟨hp', hle'⟩ := hother _ _ _ (h.reach hreach) hp hc hg hstep
      exact .inr ⟨hp', by omega⟩
  | @count n t u a h hc hg hstep ih =>
    rcases ih with hq | ⟨hp, hle⟩
    · exact .inl (hkeep _ _ _ hg hstep hq)
    · rcases hcount _ _ _ (h.reach hreach) hp hc hg hstep with hq | ⟨hp', hlt⟩
      · exact .inl hq
      · exact .inr ⟨hp', by omega⟩

end UringWs.System
