import Mathlib.Data.Nat.Basic
import Mathlib.Logic.Relation

/-!
# Loops that may run for ever

A round of a `while` loop goes on with another state or ends with a result. The loop
ends with a result if some number of rounds reaches it; it diverges if none does. A
state that a round leaves unchanged is one that the loop never leaves.

A loop may take several rounds of another loop at once (`Gathers`); it then has the same
results, and needs no more rounds. A loop may have rounds that are not defined; it then
stops without a result (`checked`).
-/

namespace LinuxProgram.Base

variable {σ ρ : Type*}

/-- At most `fuel` rounds of a loop. -/
def iterate (round : σ → σ ⊕ ρ) : (fuel : ℕ) → σ → Option ρ
  | 0, _ => none
  | fuel + 1, s =>
    match round s with
    | .inl s' => iterate round fuel s'
    | .inr r => some r

/-- The loop ends with a result. -/
def Ends (round : σ → σ ⊕ ρ) (s : σ) (r : ρ) : Prop := ∃ fuel, iterate round fuel s = some r

/-- The loop never ends. -/
def Diverges (round : σ → σ ⊕ ρ) (s : σ) : Prop := ∀ fuel, iterate round fuel s = none

/-- What becomes of the loop: its result, or none if it diverges. -/
def Outcome (round : σ → σ ⊕ ρ) (s : σ) : Option ρ → Prop
  | some r => Ends round s r
  | none => Diverges round s

section Rules

variable {round : σ → σ ⊕ ρ} {s s' : σ} {r r' : ρ}

theorem iterate_succ_of_inl (goes_on : round s = .inl s') (fuel : ℕ) :
    iterate round (fuel + 1) s = iterate round fuel s' := by
  rw [iterate, goes_on]

theorem iterate_succ_of_inr (ends : round s = .inr r) (fuel : ℕ) :
    iterate round (fuel + 1) s = some r := by
  rw [iterate, ends]

theorem Ends.now (ends : round s = .inr r) : Ends round s r := ⟨1, iterate_succ_of_inr ends 0⟩

theorem Ends.later (goes_on : round s = .inl s') (rest : Ends round s' r) : Ends round s r := by
  obtain ⟨fuel, rest⟩ := rest
  exact ⟨fuel + 1, (iterate_succ_of_inl goes_on fuel).trans rest⟩

theorem Diverges.later (goes_on : round s = .inl s') (rest : Diverges round s') :
    Diverges round s := by
  intro fuel
  cases fuel with
  | zero => rfl
  | succ fuel => exact (iterate_succ_of_inl goes_on fuel).trans (rest fuel)

/-- A round that changes nothing is repeated for ever. -/
theorem Diverges.of_fixed (fixed : round s = .inl s) : Diverges round s := by
  intro fuel
  induction fuel with
  | zero => rfl
  | succ fuel ih => exact (iterate_succ_of_inl fixed fuel).trans ih

theorem Outcome.later {outcome : Option ρ} (goes_on : round s = .inl s')
    (rest : Outcome round s' outcome) : Outcome round s outcome := by
  cases outcome with
  | none => exact Diverges.later goes_on rest
  | some r => exact Ends.later goes_on rest

theorem Diverges.not_ends (diverges : Diverges round s) : ¬ Ends round s r := by
  rintro ⟨fuel, ended⟩
  rw [diverges fuel] at ended
  cases ended

/-- A loop has one result. -/
theorem Ends.unique (first : Ends round s r) (second : Ends round s r') : r = r' := by
  obtain ⟨fuel, first⟩ := first
  obtain ⟨fuel', second⟩ := second
  induction fuel generalizing s fuel' with
  | zero => cases first
  | succ fuel ih =>
    cases fuel' with
    | zero => cases second
    | succ fuel' =>
      cases next : round s with
      | inl t =>
        rw [iterate_succ_of_inl next] at first second
        exact ih first fuel' second
      | inr q =>
        rw [iterate_succ_of_inr next] at first second
        exact Option.some.inj (first.symm.trans second)

theorem Outcome.of_ends {outcome : Option ρ} (known : Outcome round s outcome)
    (ended : Ends round s r) : outcome = some r := by
  cases outcome with
  | none => exact absurd ended known.not_ends
  | some r' => rw [Ends.unique known ended]

theorem Outcome.diverges_iff {outcome : Option ρ} (known : Outcome round s outcome) :
    Diverges round s ↔ outcome = none := by
  cases outcome with
  | none => exact ⟨fun _ => rfl, fun _ => known⟩
  | some r =>
    constructor
    · intro diverges
      exact absurd known diverges.not_ends
    · exact nofun

theorem iterate_mono {fuel fuel' : ℕ} (ended : iterate round fuel s = some r)
    (more : fuel ≤ fuel') : iterate round fuel' s = some r := by
  induction fuel generalizing s fuel' with
  | zero => cases ended
  | succ fuel ih =>
    obtain ⟨fuel', rfl⟩ : ∃ n, fuel' = n + 1 := ⟨fuel' - 1, by omega⟩
    cases next : round s with
    | inl t =>
      rw [iterate_succ_of_inl next] at ended ⊢
      exact ih ended (by omega)
    | inr q =>
      rw [iterate_succ_of_inr next] at ended ⊢
      exact ended

/-- A loop that keeps an invariant and decreases a measure ends, from a state in which the
invariant holds. -/
theorem exists_iterate {inv : σ → Prop} {measure : σ → ℕ}
    (step : ∀ s s', inv s → round s = .inl s' → inv s' ∧ measure s' < measure s) (fuel : ℕ)
    (start : inv s) (enough : measure s < fuel) :
    ∃ t r, inv t ∧ round t = .inr r ∧ iterate round fuel s = some r := by
  induction fuel generalizing s with
  | zero => exact absurd enough (Nat.not_lt_zero _)
  | succ fuel ih =>
    cases next : round s with
    | inl s' =>
      obtain ⟨kept, less⟩ := step s s' start next
      obtain ⟨t, r, holds, last, ended⟩ := ih kept (by omega)
      exact ⟨t, r, holds, last, (iterate_succ_of_inl next fuel).trans ended⟩
    | inr r => exact ⟨s, r, start, next, iterate_succ_of_inr next fuel⟩

/-- What an invariant says about the last state of a loop that has ended. -/
theorem last_round {inv : σ → Prop} (step : ∀ s s', inv s → round s = .inl s' → inv s')
    (start : inv s) (ended : Ends round s r) : ∃ t, inv t ∧ round t = .inr r := by
  obtain ⟨fuel, ended⟩ := ended
  induction fuel generalizing s with
  | zero => cases ended
  | succ fuel ih =>
    cases next : round s with
    | inl s' =>
      rw [iterate_succ_of_inl next] at ended
      exact ih (step s s' start next) ended
    | inr q =>
      rw [iterate_succ_of_inr next] at ended
      exact ⟨s, start, by rw [next, Option.some.inj ended]⟩

end Rules

/-! ### Several rounds -/

/-- A round leads from a state to the next. -/
def Goes (round : σ → σ ⊕ ρ) (s s' : σ) : Prop := round s = .inl s'

/-- Rounds lead from a state to another. -/
abbrev Leads (round : σ → σ ⊕ ρ) : σ → σ → Prop := Relation.ReflTransGen (Goes round)

/-- One or more rounds lead to another state, or end the loop. -/
def Reaches (round : σ → σ ⊕ ρ) (s : σ) : σ ⊕ ρ → Prop
  | .inl s' => Relation.TransGen (Goes round) s s'
  | .inr r => Ends round s r

/-- A round of the first loop is one or more rounds of the second. -/
def Gathers (round plain : σ → σ ⊕ ρ) : Prop := ∀ s, Reaches plain s (round s)

section Several

variable {round plain : σ → σ ⊕ ρ} {s s' : σ} {r : ρ}

theorem Ends.of_leads (leads : Leads round s s') (ended : Ends round s' r) : Ends round s r := by
  induction leads using Relation.ReflTransGen.head_induction_on with
  | refl => exact ended
  | head goes _ ih => exact Ends.later goes ih

theorem Reaches.now {next : σ ⊕ ρ} (is_next : round s = next) : Reaches round s next := by
  cases next with
  | inl s' => exact .single is_next
  | inr r => exact Ends.now is_next

theorem Reaches.later {next : σ ⊕ ρ} (goes : Goes round s s') (rest : Reaches round s' next) :
    Reaches round s next := by
  cases next with
  | inl t => exact .head goes rest
  | inr r => exact Ends.later goes rest

theorem iterate_of_transGen {fuel : ℕ} (leads : Relation.TransGen (Goes round) s s')
    (ended : iterate round fuel s = some r) : ∃ less < fuel, iterate round less s' = some r := by
  have once {t t' : σ} {fuel : ℕ} (goes : Goes round t t')
      (ended : iterate round fuel t = some r) :
      ∃ less < fuel, iterate round less t' = some r := by
    cases fuel with
    | zero => cases ended
    | succ fuel => exact ⟨fuel, Nat.lt_succ_self _, by rwa [iterate_succ_of_inl goes] at ended⟩
  induction leads with
  | single goes => exact once goes ended
  | tail _ goes ih =>
    obtain ⟨fuel', less, ended⟩ := ih
    obtain ⟨fuel'', less', ended⟩ := once goes ended
    exact ⟨fuel'', Nat.lt_trans less' less, ended⟩

/-- The loop that gathers rounds has the results of the other one, in as many rounds. -/
theorem Gathers.iterate (gathers : Gathers round plain) {fuel : ℕ}
    (ended : Base.iterate plain fuel s = some r) : Base.iterate round fuel s = some r := by
  induction fuel using Nat.strong_induction_on generalizing s with
  | _ fuel ih =>
    have gathered := gathers s
    obtain ⟨fuel, rfl⟩ : ∃ n, fuel = n + 1 := by
      cases fuel with
      | zero => cases ended
      | succ n => exact ⟨n, rfl⟩
    cases next : round s with
    | inl s' =>
      rw [next] at gathered
      obtain ⟨less, fewer, ended⟩ := iterate_of_transGen gathered ended
      rw [iterate_succ_of_inl next]
      exact iterate_mono (ih less fewer ended) (by omega)
    | inr q =>
      rw [next] at gathered
      rw [iterate_succ_of_inr next, Ends.unique gathered ⟨_, ended⟩]

theorem Gathers.ends_iff (gathers : Gathers round plain) : Ends round s r ↔ Ends plain s r := by
  constructor
  · rintro ⟨fuel, ended⟩
    induction fuel generalizing s with
    | zero => cases ended
    | succ fuel ih =>
      have gathered := gathers s
      cases next : round s with
      | inl s' =>
        rw [next] at gathered
        rw [iterate_succ_of_inl next] at ended
        exact Ends.of_leads gathered.to_reflTransGen (ih ended)
      | inr q =>
        rw [next] at gathered
        rw [iterate_succ_of_inr next] at ended
        rwa [← Option.some.inj ended]
  · rintro ⟨fuel, ended⟩
    exact ⟨fuel, gathers.iterate ended⟩

theorem Gathers.leads (gathers : Gathers round plain) (leads : Leads round s s') :
    Leads plain s s' := by
  induction leads with
  | refl => exact .refl
  | @tail t t' _ goes ih =>
    have gathered := gathers t
    rw [show round t = .inl t' from goes] at gathered
    exact ih.trans gathered.to_reflTransGen

/-- An invariant holds in every state that rounds lead to. -/
theorem Leads.keeps (inv : σ → Prop) (step : ∀ s s', inv s → round s = .inl s' → inv s')
    (start : inv s) (leads : Leads round s s') : inv s' := by
  induction leads with
  | refl => exact start
  | tail _ goes ih => exact step _ _ ih goes

end Several

/-! ### Rounds that are not defined -/

/-- A loop that stops without a result at a round that is not defined. -/
def checked (defined : σ → σ ⊕ ρ → Bool) (round : σ → σ ⊕ ρ) (s : σ) : σ ⊕ Option ρ :=
  if defined s (round s) then (round s).map id some else .inr none

/-- If all rounds are defined, nothing is lost. -/
theorem iterate_checked {defined : σ → σ ⊕ ρ → Bool} {round : σ → σ ⊕ ρ} {s : σ}
    (all : ∀ t, Leads round s t → defined t (round t)) (fuel : ℕ) :
    iterate (checked defined round) fuel s = (iterate round fuel s).map some := by
  induction fuel generalizing s with
  | zero => rfl
  | succ fuel ih =>
    have this : checked defined round s = (round s).map id some := if_pos (all s .refl)
    cases next : round s with
    | inl s' =>
      rw [iterate_succ_of_inl next, iterate_succ_of_inl (this.trans (by rw [next]; rfl))]
      exact ih fun t leads => all t (.head next leads)
    | inr r =>
      rw [iterate_succ_of_inr next, iterate_succ_of_inr (this.trans (by rw [next]; rfl)),
        Option.map_some]

end LinuxProgram.Base
