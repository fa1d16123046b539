import Mathlib.Data.List.Induction

/-!
# Labelled transition systems

A system has initial states and labelled steps; a run is a list of labels that
leads from one state to another. What holds initially and is kept by every step
holds in every reachable state.
-/

namespace LinuxProgram.Base

/-- Initial states and labelled steps. -/
structure System (σ α : Type*) where
  init : σ → Prop
  step : σ → α → σ → Prop

namespace System

variable {σ α : Type*} {S : System σ α} {s t u : σ} {a : α} {run rest : List α}

/-- `S.Steps s run t`: the labels of `run`, in order, lead from `s` to `t`. -/
inductive Steps (S : System σ α) (s : σ) : List α → σ → Prop
  | refl : Steps S s [] s
  | tail {run : List α} {a : α} {t u : σ} :
      Steps S s run t → S.step t a u → Steps S s (run ++ [a]) u

/-- A state that some run reaches from an initial state. -/
def Reachable (S : System σ α) (s : σ) : Prop := ∃ s₀ run, S.init s₀ ∧ S.Steps s₀ run s

/-- The system whose steps are those that meet a condition on the state they start from. -/
def restrict (S : System σ α) (cond : σ → α → Prop) : System σ α where
  init := S.init
  step s a t := S.step s a t ∧ cond s a

theorem Reachable.start (h : S.init s) : S.Reachable s := ⟨s, [], h, .refl⟩

theorem Reachable.extend (reach : S.Reachable s) (last : S.step s a t) : S.Reachable t := by
  obtain ⟨s₀, run, start, steps⟩ := reach
  exact ⟨s₀, run ++ [a], start, .tail steps last⟩

theorem steps_concat : S.Steps s (run ++ [a]) u ↔ ∃ t, S.Steps s run t ∧ S.step t a u := by
  constructor
  · generalize whole : run ++ [a] = labels
    rintro (_ | ⟨steps, last⟩)
    · exact absurd whole (by simp)
    · obtain ⟨rfl, same⟩ := List.append_inj' whole rfl
      cases same
      exact ⟨_, steps, last⟩
  · rintro ⟨t, steps, last⟩
    exact .tail steps last

theorem Steps.single (step : S.step s a t) : S.Steps s [a] t := .tail .refl step

theorem Steps.trans (first : S.Steps s run t) (second : S.Steps t rest u) :
    S.Steps s (run ++ rest) u := by
  induction second with
  | refl => rwa [List.append_nil]
  | tail _ last ih =>
    rw [← List.append_assoc]
    exact .tail ih last

theorem Steps.split (steps : S.Steps s (run ++ rest) u) :
    ∃ t, S.Steps s run t ∧ S.Steps t rest u := by
  induction rest using List.reverseRecOn generalizing u with
  | nil => exact ⟨u, by rwa [List.append_nil] at steps, .refl⟩
  | append_singleton rest a ih =>
    rw [← List.append_assoc] at steps
    obtain ⟨t, steps, last⟩ := steps_concat.mp steps
    obtain ⟨t', first, second⟩ := ih steps
    exact ⟨t', first, .tail second last⟩

/-- A run taken apart at one of its labels. -/
theorem Steps.split_at (steps : S.Steps s (run ++ a :: rest) u) :
    ∃ t t', S.Steps s run t ∧ S.step t a t' ∧ S.Steps t' rest u := by
  rw [List.append_cons] at steps
  obtain ⟨t', before, after⟩ := steps.split
  obtain ⟨t, before, last⟩ := steps_concat.mp before
  exact ⟨t, t', before, last, after⟩

/-- What every step keeps is kept by every run. -/
theorem Steps.invariant {inv : σ → Prop} (keeps : ∀ s a t, S.step s a t → inv s → inv t)
    (steps : S.Steps s run t) (start : inv s) : inv t := by
  induction steps with
  | refl => exact start
  | tail _ last ih => exact keeps _ _ _ last ih

/-- What every step keeps holds wherever a label of the run is taken. -/
theorem Steps.invariant_at {inv : σ → Prop} (keeps : ∀ s a t, S.step s a t → inv s → inv t)
    (steps : S.Steps s run u) (start : inv s) (taken : a ∈ run) :
    ∃ t t', inv t ∧ S.step t a t' := by
  obtain ⟨before, after, rfl⟩ := List.append_of_mem taken
  obtain ⟨t, t', first, step, -⟩ := steps.split_at
  exact ⟨t, t', first.invariant keeps start, step⟩

/-- The invariant rule. -/
theorem Reachable.invariant {inv : σ → Prop} (initial : ∀ s, S.init s → inv s)
    (keeps : ∀ s a t, S.step s a t → inv s → inv t) (reach : S.Reachable s) : inv s := by
  obtain ⟨s₀, run, start, steps⟩ := reach
  exact steps.invariant keeps (initial s₀ start)

end System

end LinuxProgram.Base
