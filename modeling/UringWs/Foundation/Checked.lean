import Mathlib.Data.Nat.Notation

/-! # Computations that an assertion can stop

A checked computation either returns or stops with the fault that stopped it.
The rules below take a successful run apart into the facts its assertions
established, and replay it when those facts are known.
-/
namespace UringWs.Checked
universe u
variable {ε : Type*} {α β : Type u}

/-- An assertion: the computation goes on only when the condition holds. -/
def ensure (p : Prop) [Decidable p] (e : ε) : Except ε Unit :=
  if p then .ok () else .error e

/-- Taking the value out of an option, stopping when there is none. -/
def unwrap (o : Option α) (e : ε) : Except ε α :=
  match o with
  | some a => .ok a
  | none => .error e

@[simp] theorem bind_eq_ok {x : Except ε α} {f : α → Except ε β} {b : β} :
    (x >>= f) = .ok b ↔ ∃ a, x = .ok a ∧ f a = .ok b := by
  cases x <;> simp [bind, Except.bind]

@[simp] theorem ok_bind (a : α) (f : α → Except ε β) : (Except.ok a >>= f) = f a := rfl

@[simp] theorem error_bind (e : ε) (f : α → Except ε β) : (Except.error e >>= f) = .error e := rfl

@[simp] theorem ensure_eq_ok {p : Prop} [Decidable p] {e : ε} {u : Unit} :
    ensure p e = .ok u ↔ p := by
  unfold ensure
  split <;> simp [*]

theorem ensure_of {p : Prop} [Decidable p] (h : p) (e : ε) : ensure p e = .ok () := if_pos h

theorem ensure_of_not {p : Prop} [Decidable p] (h : ¬ p) (e : ε) : ensure p e = .error e := if_neg h

@[simp] theorem unwrap_eq_ok {o : Option α} {e : ε} {a : α} : unwrap o e = .ok a ↔ o = some a := by
  cases o <;> simp [unwrap]

@[simp] theorem unwrap_some (a : α) (e : ε) : unwrap (some a) e = .ok a := rfl

theorem ensure_eq_error {p : Prop} [Decidable p] {e e' : ε} :
    ensure p e = .error e' ↔ ¬ p ∧ e = e' := by
  unfold ensure
  split <;> simp [*]

theorem unwrap_eq_error {o : Option α} {e e' : ε} : unwrap o e = .error e' ↔ o = none ∧ e = e' := by
  cases o <;> simp [unwrap]

theorem bind_eq_error {x : Except ε α} {f : α → Except ε β} {e : ε} :
    (x >>= f) = .error e ↔ x = .error e ∨ ∃ a, x = .ok a ∧ f a = .error e := by
  cases x <;> simp [bind, Except.bind]

/-- A computation stops exactly when it does not return. -/
theorem exists_error_iff {x : Except ε α} : (∃ e, x = .error e) ↔ ¬ ∃ a, x = .ok a := by
  cases x <;> simp

/-! ### Computations that never stop with a fault of some kind -/

def Avoids (bad : ε → Prop) (x : Except ε α) : Prop := ∀ e, x = .error e → ¬ bad e

variable {bad : ε → Prop}

theorem Avoids.ok (a : α) : Avoids bad (.ok a) := fun _ h => nomatch h

theorem Avoids.bind {x : Except ε α} {f : α → Except ε β} (hx : Avoids bad x)
    (hf : ∀ a, x = .ok a → Avoids bad (f a)) : Avoids bad (x >>= f) := by
  intro e h
  rcases bind_eq_error.mp h with h | ⟨a, ha, h⟩
  · exact hx e h
  · exact hf a ha e h

theorem Avoids.ensure {p : Prop} [Decidable p] {e : ε} (h : p ∨ ¬ bad e) :
    Avoids bad (Checked.ensure p e) := by
  intro e' he
  obtain ⟨hp, rfl⟩ := ensure_eq_error.mp he
  exact h.resolve_left hp

theorem Avoids.unwrap {o : Option α} {e : ε} (h : ¬ bad e) : Avoids bad (Checked.unwrap o e) := by
  intro e' he
  obtain ⟨-, rfl⟩ := unwrap_eq_error.mp he
  exact h

end UringWs.Checked
