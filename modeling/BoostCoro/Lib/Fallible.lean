/-!
# Fallible computations

Simp lemmas and inversion rules for programs written in `Except`. A program
that is known to succeed is peeled apart with `bind_eq_ok`, one computation at a
time, and a program whose parts are known is evaluated by `simp`.
-/

namespace Fallible

variable {ε α β : Type}

@[simp] theorem ok_bind (a : α) (f : α → Except ε β) : (Except.ok a >>= f) = f a := rfl

@[simp] theorem error_bind (e : ε) (f : α → Except ε β) :
    (Except.error e >>= f) = Except.error e := rfl

@[simp] theorem pure_eq_ok (a : α) : (pure a : Except ε α) = Except.ok a := rfl

/-- A sequence succeeds when both parts do. -/
theorem bind_eq_ok {x : Except ε α} {f : α → Except ε β} {b : β} :
    (x >>= f) = .ok b ↔ ∃ a, x = .ok a ∧ f a = .ok b := by
  cases x with
  | error e => simp
  | ok a => simp

/-- Every error that the computation can end in satisfies `P`. -/
def Faults (P : ε → Prop) (x : Except ε α) : Prop := ∀ e, x = .error e → P e

namespace Faults

variable {P : ε → Prop} {x : Except ε α} {f : α → Except ε β}

@[simp] theorem ok (a : α) : Faults P (.ok a : Except ε α) := fun _ h => nomatch h

@[simp] theorem error {e : ε} : Faults P (.error e : Except ε α) ↔ P e :=
  ⟨fun h => h e rfl, fun h _ he => by cases he; exact h⟩

theorem bind (hx : Faults P x) (hf : ∀ a, x = .ok a → Faults P (f a)) : Faults P (x >>= f) := by
  cases x with
  | error e => exact fun e' he => hx e' (by cases he; rfl)
  | ok a => exact hf a rfl

theorem ite {c : Prop} [Decidable c] {y : Except ε α} (hx : c → Faults P x)
    (hy : ¬ c → Faults P y) : Faults P (if c then x else y) := by
  by_cases hc : c
  · rw [if_pos hc]
    exact hx hc
  · rw [if_neg hc]
    exact hy hc

end Faults

/-! ## Two computations side by side -/

/-- The computations fail alike, or succeed with results that `R` relates. -/
inductive Both {α β : Type} (R : α → β → Prop) : Except ε α → Except ε β → Prop
  | ok {a : α} {b : β} (h : R a b) : Both R (.ok a) (.ok b)
  | error (e : ε) : Both R (.error e) (.error e)

namespace Both

theorem refl (x : Except ε α) : Both Eq x x := by
  cases x with
  | error e => exact .error e
  | ok a => exact .ok rfl

variable {α' β' : Type} {R : α → α' → Prop} {S : β → β' → Prop} {x : Except ε α}
  {x' : Except ε α'} {y y' : Except ε β}

theorem bind {f : α → Except ε β} {f' : α' → Except ε β'} (hx : Both R x x')
    (hf : ∀ a a', x = .ok a → R a a' → Both S (f a) (f' a')) : Both S (x >>= f) (x' >>= f') := by
  cases hx with
  | ok h => exact hf _ _ rfl h
  | error e => exact .error e

theorem map {f : α → β} {f' : α' → β'} (hx : Both R x x')
    (hf : ∀ a a', R a a' → S (f a) (f' a')) : Both S (x.map f) (x'.map f') := by
  cases hx with
  | ok h => exact .ok (hf _ _ h)
  | error e => exact .error e

theorem mono {R' : α → α' → Prop} (hx : Both R x x') (himp : ∀ a a', R a a' → R' a a') :
    Both R' x x' := by
  cases hx with
  | ok h => exact .ok (himp _ _ h)
  | error e => exact .error e

/-- The computations take the same branch. -/
theorem ite {y₁ y₂ : Except ε β} {y₁' y₂' : Except ε β'} {c c' : Prop} [Decidable c]
    [Decidable c'] (hc : c' ↔ c) (h₁ : c → Both S y₁ y₁') (h₂ : ¬ c → Both S y₂ y₂') :
    Both S (if c then y₁ else y₂) (if c' then y₁' else y₂') := by
  by_cases h : c
  · rw [if_pos h, if_pos (hc.mpr h)]
    exact h₁ h
  · rw [if_neg h, if_neg fun h' => h (hc.mp h')]
    exact h₂ h

theorem ok_left {a : α} (hx : Both R x x') (h : x = .ok a) : ∃ a', x' = .ok a' ∧ R a a' := by
  cases hx with
  | ok hR => exact ⟨_, rfl, Except.ok.inj h ▸ hR⟩
  | error => cases h

end Both

end Fallible
