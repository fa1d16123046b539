import Mathlib.Control.Basic

/-!
# Computations that can fail

Two judgements about a computation in `Except`. `Returns x P` is partial: if the computation
returns a value, the value has the property. `Yields x P` is total: it does return a value,
and the value has the property. Each has a rule for sequencing, so that a chain of steps is
checked step by step.
-/

namespace LinuxProgram.Base

universe u

variable {ε : Type*} {α β : Type u} {x : Except ε α} {f : α → Except ε β} {P : α → Prop}
  {Q : β → Prop}

/-- Every value that the computation returns has the property. -/
def Returns (x : Except ε α) (P : α → Prop) : Prop := ∀ a, x = .ok a → P a

/-- The computation returns a value with the property. -/
def Yields (x : Except ε α) (P : α → Prop) : Prop := ∃ a, x = .ok a ∧ P a

theorem Returns.pure {a : α} (holds : P a) : Returns (Pure.pure a : Except ε α) P := by
  rintro _ ⟨⟩
  exact holds

/-- A value is returned from the second part, on a value that the first part returned. -/
theorem Returns.bind (rest : ∀ a, x = .ok a → Returns (f a) Q) : Returns (x >>= f) Q := by
  intro b returned
  cases first : x with
  | error e =>
    rw [first] at returned
    cases returned
  | ok a =>
    rw [first] at returned
    exact rest a first b returned

theorem Yields.pure {a : α} (holds : P a) : Yields (Pure.pure a : Except ε α) P := ⟨a, rfl, holds⟩

theorem Yields.bind (first : Yields x P) (rest : ∀ a, P a → Yields (f a) Q) :
    Yields (x >>= f) Q := by
  obtain ⟨a, rfl, holds⟩ := first
  exact rest a holds

end LinuxProgram.Base
