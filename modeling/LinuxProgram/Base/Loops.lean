import Mathlib.Control.Basic
import Mathlib.Data.List.Basic

/-!
# Loops with early return, and runs of event-driven programs

A `Cursor` is the control part of a C `for` loop: a test, an advance and a bound
that the advance decreases whenever the test holds. The body changes a state in
any monad; a body that can leave the enclosing function works in `Except`, where
leaving is `Except.error`.

A program that waits for one event after the other is a step function, and a
run is the fold of that function over the events. A step that leaves the program
ends the fold, so later events are never seen.
-/

namespace LinuxProgram.Base

universe u v

variable {P σ : Type u} {α ε : Type*}

/-- The control of a terminating `for` loop over cursor positions. -/
structure Cursor (P : Type u) where
  /-- The loop test. -/
  ok : P → Bool
  /-- The advance at the end of each round. -/
  next : P → P
  /-- A bound on the number of rounds. -/
  bound : P → ℕ
  descends : ∀ p, ok p = true → bound (next p) < bound p

namespace Cursor

variable (C : Cursor P)

section Loop

variable {M : Type u → Type v} [Monad M] (body : P → σ → M σ)

/-- At most `fuel` rounds of the loop. -/
def rounds : (fuel : ℕ) → P → σ → M (P × σ)
  | 0, p, s => pure (p, s)
  | fuel + 1, p, s =>
    if C.ok p then do
      let s' ← body p s
      rounds fuel (C.next p) s'
    else pure (p, s)

/-- The loop: where the cursor stops and the state it leaves. -/
def forEach (p : P) (s : σ) : M (P × σ) := C.rounds body (C.bound p) p s

/-- Any fuel that reaches the bound gives the same loop. -/
theorem rounds_eq_forEach {fuel : ℕ} {p : P} (enough : C.bound p ≤ fuel) (s : σ) :
    C.rounds body fuel p s = C.forEach body p s := by
  -- Both sides are driven by their own fuel; the bound lets them run in step.
  have agree : ∀ (f g : ℕ) (p : P) (s : σ), C.bound p ≤ f → C.bound p ≤ g →
      C.rounds body f p s = C.rounds body g p s := by
    intro f
    induction f with
    | zero =>
      intro g p s hf hg
      -- Without fuel the bound is zero, and a test that holds would lower it.
      have stop : C.ok p = false := by
        by_contra test
        have := C.descends p (by simpa using test)
        omega
      cases g <;> simp [rounds, stop]
    | succ f ih =>
      intro g p s hf hg
      cases test : C.ok p with
      | false => cases g <;> simp [rounds, test]
      | true =>
        have lower := C.descends p test
        cases g with
        | zero => omega
        | succ g =>
          simp only [rounds, test, if_true]
          congr 1
          funext s'
          exact ih g (C.next p) s' (by omega) (by omega)
  exact agree _ _ p s enough (Nat.le_refl _)

/-- The loop ends where the test fails. -/
theorem forEach_stop {p : P} (test : C.ok p = false) (s : σ) :
    C.forEach body p s = pure (p, s) := by
  unfold forEach
  cases C.bound p <;> simp [rounds, test]

/-- One round of the loop. -/
theorem forEach_step {p : P} (test : C.ok p = true) (s : σ) :
    C.forEach body p s = body p s >>= C.forEach body (C.next p) := by
  have lower := C.descends p test
  obtain ⟨k, hk⟩ : ∃ k, C.bound p = k + 1 := ⟨C.bound p - 1, by omega⟩
  rw [forEach, hk, rounds, if_pos test]
  congr 1
  funext s'
  exact C.rounds_eq_forEach body (by omega) s'

/-- A loop whose body has no effect but on the state. -/
theorem forEach_pure [LawfulMonad M] (f : P → σ → σ) (p : P) (s : σ) :
    C.forEach (M := M) (fun p s => pure (f p s)) p s =
      pure (Id.run (C.forEach (fun p s => pure (f p s)) p s)) := by
  unfold forEach
  induction C.bound p generalizing p s with
  | zero => rfl
  | succ fuel ih =>
    rw [rounds, rounds]
    split_ifs
    · rw [pure_bind, pure_bind, ih]
    · rfl

end Loop

/-! ### The positions of a loop -/

/-- A property of the state that each round keeps holds when the loop ends
normally. -/
theorem forEach_invariant {body : P → σ → Except ε σ} (inv : σ → Prop)
    (keeps : ∀ p s s', C.ok p = true → body p s = .ok s' → inv s → inv s')
    {p q : P} {s s' : σ} (run : C.forEach body p s = .ok (q, s')) (start : inv s) : inv s' := by
  -- Induction on the fuel that `forEach` starts with.
  have fueled : ∀ (f : ℕ) (p : P) (s : σ), C.rounds body f p s = .ok (q, s') → inv s → inv s' := by
    intro f
    induction f with
    | zero =>
      intro p s run start
      obtain ⟨-, rfl⟩ := Prod.mk.inj (Except.ok.inj run)
      exact start
    | succ f ih =>
      intro p s run start
      rw [rounds] at run
      split_ifs at run with test
      · cases hbody : body p s with
        | error e => rw [hbody] at run; cases run
        | ok t =>
          rw [hbody] at run
          exact ih _ t run (keeps p s t test hbody start)
      · obtain ⟨-, rfl⟩ := Prod.mk.inj (Except.ok.inj run)
        exact start
  exact fueled _ p s run start

/-- A loop that is left was left by its body, in a state that the rounds before kept. -/
theorem forEach_error {body : P → σ → Except ε σ} (inv : σ → Prop)
    (keeps : ∀ p s s', C.ok p = true → body p s = .ok s' → inv s → inv s')
    {p : P} {s : σ} {e : ε} (run : C.forEach body p s = .error e) (start : inv s) :
    ∃ q t, C.ok q = true ∧ inv t ∧ body q t = .error e := by
  unfold forEach at run
  generalize C.bound p = fuel at run
  induction fuel generalizing p s with
  | zero => cases run
  | succ fuel ih =>
    rw [rounds] at run
    split_ifs at run with test
    · cases last : body p s with
      | error e' =>
        rw [last] at run
        cases run
        exact ⟨p, s, test, start, last⟩
      | ok t =>
        rw [last] at run
        exact ih (keeps p s t test last start) run
    · cases run

end Cursor

/-! ### Runs -/

/-- The run of a step function over a list of events. -/
def runEvents (step : σ → α → Except ε σ) (s : σ) (events : List α) : Except ε σ :=
  events.foldlM step s

section Runs

variable (step : σ → α → Except ε σ)

@[simp] theorem runEvents_nil (s : σ) : runEvents step s [] = .ok s := rfl

@[simp] theorem runEvents_cons (s : σ) (a : α) (events : List α) :
    runEvents step s (a :: events) = step s a >>= fun s' => runEvents step s' events := rfl

theorem runEvents_append (s : σ) (xs ys : List α) :
    runEvents step s (xs ++ ys) = runEvents step s xs >>= fun s' => runEvents step s' ys := by
  simp [runEvents, List.foldlM_append]

/-- A run that goes on after one more event went on before it. -/
theorem runEvents_concat_ok {s s' : σ} {xs : List α} {a : α} :
    runEvents step s (xs ++ [a]) = .ok s' ↔
      ∃ t, runEvents step s xs = .ok t ∧ step t a = .ok s' := by
  rw [runEvents_append]
  cases runEvents step s xs with
  | error e => simp [bind, Except.bind]
  | ok t =>
    change runEvents step t [a] = .ok s' ↔ _
    cases last : step t a <;> simp [runEvents_cons, last, bind, Except.bind]

variable {step}

/-- What every step keeps is kept by a run that goes on. -/
theorem runEvents_invariant (inv : σ → Prop)
    (keeps : ∀ s a s', step s a = .ok s' → inv s → inv s') {s s' : σ} {events : List α}
    (run : runEvents step s events = .ok s') (start : inv s) : inv s' := by
  induction events generalizing s with
  | nil =>
    cases run
    exact start
  | cons a events ih =>
    rw [runEvents_cons] at run
    cases first : step s a with
    | error e =>
      rw [first] at run
      cases run
    | ok t =>
      rw [first] at run
      exact ih run (keeps s a t first start)

/-- A run that leaves goes on up to the event at which it does. -/
theorem runEvents_error {s : σ} {e : ε} {events : List α}
    (run : runEvents step s events = .error e) :
    ∃ before a after t, events = before ++ a :: after ∧ runEvents step s before = .ok t ∧
      step t a = .error e := by
  induction events generalizing s with
  | nil => cases run
  | cons a events ih =>
    rw [runEvents_cons] at run
    cases first : step s a with
    | error e' =>
      rw [first] at run
      cases run
      exact ⟨[], a, events, s, rfl, rfl, first⟩
    | ok t =>
      rw [first] at run
      obtain ⟨before, b, after, u, rfl, ran, left⟩ := ih run
      refine ⟨a :: before, b, after, u, rfl, ?_, left⟩
      rw [runEvents_cons, first]
      exact ran

end Runs

end LinuxProgram.Base
