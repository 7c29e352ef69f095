import Mathlib.Logic.Relation
import Mathlib.Data.Nat.Init

/-! # Labelled transition systems with guarded runs

A run is a sequence of labelled steps from an initial state. A guard on the
steps, a predicate of the state before the step and its label, restricts the
runs considered; the unrestricted runs are those of the trivial guard.
-/
namespace UringWs

structure System (σ α : Type*) where
  init : σ → Prop
  step : σ → α → σ → Prop

namespace System
variable {σ α τ β : Type*} (M : System σ α)

def Move (guard : σ → α → Prop) (s t : σ) : Prop := ∃ a, guard s a ∧ M.step s a t

/-- The states that finitely many allowed steps reach. -/
def Reach (guard : σ → α → Prop) (t : σ) : Prop :=
  ∃ s, M.init s ∧ Relation.ReflTransGen (M.Move guard) s t

abbrev Reachable (t : σ) : Prop := M.Reach (fun _ _ => True) t

variable {M} {guard guard' : σ → α → Prop} {s t : σ} {a : α}

theorem Reach.start (h : M.init s) : M.Reach guard s := ⟨s, h, .refl⟩

theorem Reach.next (h : M.Reach guard s) (hg : guard s a) (hs : M.step s a t) :
    M.Reach guard t := by
  obtain ⟨s₀, h₀, hr⟩ := h
  exact ⟨s₀, h₀, hr.tail ⟨a, hg, hs⟩⟩

theorem Reach.then (h : M.Reach guard s) (hr : Relation.ReflTransGen (M.Move guard) s t) :
    M.Reach guard t := by
  obtain ⟨s₀, h₀, h⟩ := h
  exact ⟨s₀, h₀, h.trans hr⟩

/-- What survives every allowed step from a reachable state survives every run. -/
theorem Reach.stays {P : σ → Prop}
    (hstep : ∀ s a t, M.Reach guard s → P s → guard s a → M.step s a t → P t)
    (h : M.Reach guard s) (hs : P s) (hr : Relation.ReflTransGen (M.Move guard) s t) : P t := by
  induction hr with
  | refl => exact hs
  | tail hr hm ih =>
    obtain ⟨a, hg, hm⟩ := hm
    exact hstep _ a _ (h.then hr) ih hg hm

/-- The run rule: what holds initially and survives every allowed step from a
reachable state holds of every reachable state. -/
theorem Reach.invariant {P : σ → Prop} (hinit : ∀ s, M.init s → P s)
    (hstep : ∀ s a t, M.Reach guard s → P s → guard s a → M.step s a t → P t)
    (h : M.Reach guard t) : P t := by
  obtain ⟨s₀, h₀, hr⟩ := h
  exact Reach.stays hstep (.start h₀) (hinit _ h₀) hr

/-- The steps of the runs of one guard satisfy another. -/
theorem Reach.refine (hg : ∀ s a, M.Reach guard s → guard s a → guard' s a)
    (h : M.Reach guard t) : M.Reach guard' t :=
  h.invariant (fun _ => .start) (fun s a _ hr ih ha hs => ih.next (hg s a hr ha) hs)

theorem Reach.mono (hg : ∀ s a, guard s a → guard' s a) (h : M.Reach guard t) :
    M.Reach guard' t := h.refine fun s a _ => hg s a

theorem Reach.reachable (h : M.Reach guard t) : M.Reachable t := h.mono (fun _ _ _ => trivial)

/-- Simulation: when every allowed step is matched by a run of another system,
the image of a reachable state is reachable there. -/
theorem Reach.simulate {N : System τ β} {guardN : τ → β → Prop} (f : σ → τ)
    (hinit : ∀ s, M.init s → N.init (f s))
    (hstep : ∀ s a t, M.Reach guard s → guard s a → M.step s a t →
      Relation.ReflTransGen (N.Move guardN) (f s) (f t))
    (h : M.Reach guard t) : N.Reach guardN (f t) :=
  h.invariant (P := fun s => N.Reach guardN (f s)) (fun s hs => .start (hinit s hs))
    (fun s a t hr ih hg hs => ih.then (hstep s a t hr hg hs))

/-- The variant rule: when some allowed step from every reachable state on the
way reaches the goal or lowers the measure on the way, some run ends at the goal. -/
theorem Reach.exists_run {P Q : σ → Prop} (measure : σ → ℕ)
    (hstep : ∀ s, M.Reach guard s → P s →
      ∃ t, M.Move guard s t ∧ (Q t ∨ P t ∧ measure t < measure s))
    (h : M.Reach guard s) (hs : P s) :
    ∃ t, Relation.ReflTransGen (M.Move guard) s t ∧ Q t := by
  induction hn : measure s using Nat.strong_induction_on generalizing s with
  | _ n ih =>
    obtain ⟨t, hmove, ht | ⟨ht, hlt⟩⟩ := hstep s h hs
    · exact ⟨t, .single hmove, ht⟩
    · obtain ⟨u, hrun, hu⟩ := ih _ (hn ▸ hlt) (h.then (.single hmove)) ht rfl
      exact ⟨u, .head hmove hrun, hu⟩

end System
end UringWs
