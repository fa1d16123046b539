import Mathlib.Data.Nat.Find
import Mathlib.Data.Nat.ModEq
import Mathlib.Logic.Function.Basic
import Mathlib.Tactic.Common

/-!
# Linear probing

A table of cells, each empty, freed or taken by a key. The search for a key starts at
its hash and goes round the table; it passes freed cells and ends at an empty one. The
search for a place ends at the first cell that is not taken.

`Reached` is the invariant that makes the search for a key complete: between the hash of
a key and its cell no cell is empty. Taking and freeing cells keep it.
-/

namespace LinuxProgram.Base

/-- A cell of a table with open addressing. -/
inductive Cell (κ : Type*)
  | empty
  | freed
  | key (k : κ)
  deriving DecidableEq

/-- The next index, round the table. -/
def advance (size n : ℕ) : ℕ := if n + 1 = size then 0 else n + 1

section Probe

variable {ρ : Type*} {found : ℕ → Option ρ} {size fuel start : ℕ} {r : ρ}

/-- Look at one cell after the other until one of them gives a result. -/
def probe (found : ℕ → Option ρ) (size : ℕ) : (fuel n : ℕ) → Option ρ
  | 0, _ => none
  | fuel + 1, n =>
    match found n with
    | some r => some r
    | none => probe found size fuel (advance size n)

theorem advance_mod (pos : 0 < size) (n : ℕ) : advance size (n % size) = (n + 1) % size := by
  have inside : n % size < size := Nat.mod_lt n pos
  rw [← Nat.mod_add_mod n size 1, advance]
  split_ifs with last
  · rw [last, Nat.mod_self]
  · exact (Nat.mod_eq_of_lt (Nat.lt_of_le_of_ne inside last)).symm

/-- A probe gives the first result on its way. -/
theorem probe_eq_some_iff (pos : 0 < size) :
    probe found size fuel (start % size) = some r ↔
      ∃ j < fuel, found ((start + j) % size) = some r ∧
        ∀ i < j, found ((start + i) % size) = none := by
  induction fuel generalizing start with
  | zero => simp [probe]
  | succ fuel ih =>
    rw [probe]
    cases first : found (start % size) with
    | some q =>
      constructor
      · rintro ⟨⟩
        exact ⟨0, Nat.succ_pos fuel, first, nofun⟩
      · rintro ⟨j, -, at_j, before⟩
        cases j with
        | zero => exact first.symm.trans at_j
        | succ j =>
          rw [← Nat.add_zero start, before 0 (Nat.succ_pos j)] at first
          cases first
    | none =>
      dsimp only
      rw [advance_mod pos, ih]
      constructor
      · rintro ⟨j, inside, at_j, before⟩
        refine ⟨j + 1, Nat.succ_lt_succ inside, by rwa [Nat.add_comm j, ← Nat.add_assoc], ?_⟩
        intro i less
        cases i with
        | zero => exact first
        | succ i =>
          rw [Nat.add_comm i, ← Nat.add_assoc]
          exact before i (Nat.lt_of_succ_lt_succ less)
      · rintro ⟨j, inside, at_j, before⟩
        cases j with
        | zero =>
          rw [Nat.add_zero, first] at at_j
          cases at_j
        | succ j =>
          refine ⟨j, Nat.lt_of_succ_lt_succ inside, ?_, fun i less => ?_⟩
          · rwa [Nat.add_assoc, Nat.add_comm 1]
          · rw [Nat.add_assoc, Nat.add_comm 1]
            exact before (i + 1) (Nat.succ_lt_succ less)

/-- Every cell is on the way, wherever it starts. -/
theorem exists_probe (start : ℕ) {n : ℕ} (inside : n < size) :
    ∃ j < size, (start + j) % size = n := by
  have pos : 0 < size := Nat.zero_lt_of_lt inside
  have rest := Nat.mod_lt start pos
  by_cases later : start % size ≤ n
  · refine ⟨n - start % size, by omega, ?_⟩
    rw [← Nat.mod_add_mod, show start % size + (n - start % size) = n by omega,
      Nat.mod_eq_of_lt inside]
  · refine ⟨n + size - start % size, by omega, ?_⟩
    rw [← Nat.mod_add_mod, show start % size + (n + size - start % size) = n + size by omega,
      Nat.add_mod_right, Nat.mod_eq_of_lt inside]

/-- Within one round the way does not come back. -/
theorem probe_injective {i j : ℕ} (first : i < size) (second : j < size)
    (same : (start + i) % size = (start + j) % size) : i = j := by
  have cancelled : i % size = j % size := Nat.ModEq.add_left_cancel' start same
  rwa [Nat.mod_eq_of_lt first, Nat.mod_eq_of_lt second] at cancelled

end Probe

section Tables

variable {κ : Type*} {hash : κ → ℕ} {size : ℕ} {cells : ℕ → Cell κ} {n : ℕ} {k : κ}

/-- The cell of a key. -/
def seek [DecidableEq κ] (hash : κ → ℕ) (size : ℕ) (cells : ℕ → Cell κ) (k : κ) : Option ℕ :=
  let found (n : ℕ) : Option (Option ℕ) :=
    match cells n with
    | .empty => some none
    | .freed => none
    | .key k' => if k' = k then some (some n) else none
  (probe found size size (hash k % size)).join

/-- The first cell for a key that is not taken, among those that `fuel` steps reach. -/
def vacancy (hash : κ → ℕ) (size : ℕ) (cells : ℕ → Cell κ) (fuel : ℕ) (k : κ) : Option ℕ :=
  let found (n : ℕ) : Option ℕ :=
    match cells n with
    | .empty | .freed => some n
    | .key _ => none
  probe found size fuel (hash k % size)

/-- Between the hash of a key and its cell no cell is empty. -/
def Reached (hash : κ → ℕ) (size : ℕ) (cells : ℕ → Cell κ) : Prop :=
  ∀ n < size, ∀ k, cells n = .key k →
    ∃ j < size, (hash k + j) % size = n ∧ ∀ i < j, cells ((hash k + i) % size) ≠ .empty

theorem reached_empty : Reached hash size fun _ => .empty := nofun

section Seek

variable [DecidableEq κ]

theorem Reached.seek_eq_some (reached : Reached hash size cells) (inside : n < size)
    (at_n : cells n = .key k) (unique : ∀ m < size, cells m = .key k → m = n) :
    seek hash size cells k = some n := by
  have pos : 0 < size := Nat.zero_lt_of_lt inside
  obtain ⟨j, less, here, before⟩ := reached n inside k at_n
  rw [seek, Option.join_eq_some_iff, probe_eq_some_iff pos]
  refine ⟨j, less, by rw [here, at_n]; simp, fun i earlier => ?_⟩
  cases content : cells ((hash k + i) % size) with
  | empty => exact absurd content (before i earlier)
  | freed => rfl
  | key k' =>
    dsimp only
    rw [if_neg]
    rintro rfl
    have same := unique _ (Nat.mod_lt _ pos) content
    have := probe_injective (earlier.trans less) less (same.trans here.symm)
    omega

theorem seek_eq_none (pos : 0 < size) (absent : ∀ n < size, cells n ≠ .key k) :
    seek hash size cells k = none := by
  rw [Option.eq_none_iff_forall_ne_some]
  intro n hit
  rw [seek, Option.join_eq_some_iff, probe_eq_some_iff pos] at hit
  obtain ⟨j, -, at_j, -⟩ := hit
  have inside := Nat.mod_lt (hash k + j) pos
  cases content : cells ((hash k + j) % size) with
  | empty => simp [content] at at_j
  | freed => simp [content] at at_j
  | key k' =>
    have differ : k' ≠ k := fun same => absent _ inside (same ▸ content)
    simp [content, differ] at at_j

end Seek

theorem exists_vacancy {fuel : ℕ} (inside : n < size) (free : ∀ k, cells n ≠ .key k)
    (enough : size ≤ fuel) (k : κ) :
    ∃ j < size, vacancy hash size cells fuel k = some ((hash k + j) % size) ∧
      (∀ k', cells ((hash k + j) % size) ≠ .key k') ∧
      ∀ i < j, cells ((hash k + i) % size) ≠ .empty := by
  classical
  have pos : 0 < size := Nat.zero_lt_of_lt inside
  obtain ⟨j₀, less₀, rfl⟩ := exists_probe (hash k) inside
  have some_free : ∃ j, ∀ k', cells ((hash k + j) % size) ≠ .key k' := ⟨j₀, free⟩
  have first := Nat.find_spec some_free
  have least (i : ℕ) (earlier : i < Nat.find some_free) :
      ∃ k', cells ((hash k + i) % size) = .key k' := by
    simpa using Nat.find_min some_free earlier
  have less : Nat.find some_free < size := (Nat.find_min' some_free free).trans_lt less₀
  refine ⟨Nat.find some_free, less, ?_, first, fun i earlier => ?_⟩
  · rw [vacancy, probe_eq_some_iff pos]
    refine ⟨Nat.find some_free, less.trans_le enough, ?_, fun i earlier => ?_⟩
    · cases content : cells ((hash k + Nat.find some_free) % size) with
      | empty => rfl
      | freed => rfl
      | key k' => exact absurd content (first k')
    · obtain ⟨k', content⟩ := least i earlier
      rw [content]
  · obtain ⟨k', content⟩ := least i earlier
    rw [content]
    exact nofun

theorem Reached.insert {j : ℕ} (reached : Reached hash size cells) (less : j < size)
    (before : ∀ i < j, cells ((hash k + i) % size) ≠ .empty) :
    Reached hash size (Function.update cells ((hash k + j) % size) (.key k)) := by
  have kept (m : ℕ) (filled : cells m ≠ .empty) :
      Function.update cells ((hash k + j) % size) (.key k) m ≠ .empty := by
    rw [Function.update_apply]
    split_ifs
    · exact nofun
    · exact filled
  intro n inside k' at_n
  rw [Function.update_apply] at at_n
  split_ifs at at_n with here
  · cases at_n
    exact ⟨j, less, here.symm, fun i earlier => kept _ (before i earlier)⟩
  · obtain ⟨j', less', here', before'⟩ := reached n inside k' at_n
    exact ⟨j', less', here', fun i earlier => kept _ (before' i earlier)⟩

theorem Reached.free (reached : Reached hash size cells) (n : ℕ) :
    Reached hash size (Function.update cells n .freed) := by
  intro m inside k at_m
  rw [Function.update_apply] at at_m
  split_ifs at at_m
  obtain ⟨j, less, here, before⟩ := reached m inside k at_m
  refine ⟨j, less, here, fun i earlier => ?_⟩
  rw [Function.update_apply]
  split_ifs
  · exact nofun
  · exact before i earlier

end Tables

end LinuxProgram.Base
