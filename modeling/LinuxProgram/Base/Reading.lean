import LinuxProgram.Base.Memory
import LinuxProgram.Base.Loops
import Mathlib.Data.List.TakeWhile

/-!
# Programs that read a block

A `Reading` is a program whose only access to a block of bytes is by reads that it spells
out, each with a kind that says what it is for. On a given block the program runs to a result
(`Reading.run`), and the reads it makes on the way can be held against a permission
(`Reading.Safe`). A program that follows a null pointer or one that points nowhere faults;
neither judgement lets that pass.

Since the block is seen through the reads only, a safe program has the same run on every
block that agrees where the permission allows a read (`Reading.Safe.congr`).

## Main definitions

* `Reading`, `Reading.run`, `Reading.Safe`
* `Reading.runBelow` — the run that must not read behind a bound
* `Reading.num`, `Reading.chars`, `Reading.text` — numbers, and strings with and without a limit
* `Reading.loop` — a `for` loop that reads in its test, its body and its advance

## Main results

* `Reading.safe_bind` — a sequence is safe part by part
* `Reading.run_loop`, `Reading.safe_loop` — a loop against the `Cursor` it follows
* `Reading.Safe.congr` — a safe program does not depend on what it may not read
-/

namespace LinuxProgram.Base

/-- A program that reads a block. It ends with a value or an early return. -/
inductive Reading (κ ε α : Type)
  | done (result : Except ε α)
  | fault
  | read (kind : κ) (off n : ℕ) (next : List UInt8 → Reading κ ε α)

namespace Reading

variable {κ ε α β P σ : Type}

/-- Go on with the value of a program, unless it faults or returns early. -/
def bind (f : α → Reading κ ε β) : Reading κ ε α → Reading κ ε β
  | done (.ok a) => f a
  | done (.error e) => done (.error e)
  | fault => fault
  | read kind off n next => read kind off n fun bytes => bind f (next bytes)

instance : Monad (Reading κ ε) where
  pure a := done (.ok a)
  bind x f := bind f x

/-- What the program ends with on a block, if it does not fault. -/
def run (m : Memory) : Reading κ ε α → Option (Except ε α)
  | done result => some result
  | fault => none
  | read _ off n next => run m (next (m.read off n))

/-- On the given block every read is allowed and no fault occurs. -/
def Safe (allowed : κ → ℕ → ℕ → Prop) (m : Memory) : Reading κ ε α → Prop
  | done _ => True
  | fault => False
  | read kind off n next => allowed kind off n ∧ Safe allowed m (next (m.read off n))

/-- What the program ends with if its reads must stay below a bound: nothing, if it faults or
reads elsewhere. -/
def runBelow (bound : ℕ) (m : Memory) : Reading κ ε α → Option (Except ε α)
  | done result => some result
  | fault => none
  | read _ off n next => if off + n ≤ bound then runBelow bound m (next (m.read off n)) else none

section Rules

variable {allowed : κ → ℕ → ℕ → Prop} {m m' : Memory} {x : Reading κ ε α} {f : α → Reading κ ε β}

@[simp] theorem run_pure (a : α) : (pure a : Reading κ ε α).run m = some (.ok a) := rfl

@[simp] theorem run_done (result : Except ε α) :
    (done result : Reading κ ε α).run m = some result := rfl

@[simp] theorem safe_pure (a : α) : (pure a : Reading κ ε α).Safe allowed m := trivial

@[simp] theorem safe_done (result : Except ε α) :
    (done result : Reading κ ε α).Safe allowed m := trivial

@[simp] theorem run_ite {cond : Prop} [Decidable cond] {y : Reading κ ε α} :
    (if cond then x else y).run m = if cond then x.run m else y.run m :=
  apply_ite (run m) cond x y

@[simp] theorem safe_ite {cond : Prop} [Decidable cond] {y : Reading κ ε α} :
    (if cond then x else y).Safe allowed m ↔
      if cond then x.Safe allowed m else y.Safe allowed m :=
  iff_of_eq (apply_ite (Safe allowed m) cond x y)

/-- Two guards and a test with early exits are the conjunction of the three. -/
theorem ok_ite_ite {a b c : Prop} [Decidable a] [Decidable b] [Decidable c] :
    (if a then if b then some (.ok (decide c)) else some (.ok false) else some (.ok false) :
      Option (Except ε Bool)) = some (.ok (decide a && decide b && decide c)) := by
  split_ifs with first second
  · rw [decide_eq_true first, decide_eq_true second, Bool.true_and, Bool.true_and]
  · rw [decide_eq_false second, Bool.and_false, Bool.false_and]
  · rw [decide_eq_false first, Bool.false_and, Bool.false_and]

theorem run_bind_ok {a : α} (first : x.run m = some (.ok a)) : (x >>= f).run m = (f a).run m := by
  induction x with
  | done result =>
    obtain rfl := Option.some.inj first
    rfl
  | fault => cases first
  | read kind off n next ih => exact ih _ first

theorem run_bind_error {e : ε} (first : x.run m = some (.error e)) :
    (x >>= f).run m = some (.error e) := by
  induction x with
  | done result =>
    obtain rfl := Option.some.inj first
    rfl
  | fault => cases first
  | read kind off n next ih => exact ih _ first

/-- A value comes from the second part, on a value of the first. -/
theorem run_bind_eq_ok {b : β} (ran : (x >>= f).run m = some (.ok b)) :
    ∃ a, x.run m = some (.ok a) ∧ (f a).run m = some (.ok b) := by
  induction x with
  | done result =>
    cases result with
    | error e => cases ran
    | ok a => exact ⟨a, rfl, ran⟩
  | fault => cases ran
  | read kind off n next ih => exact ih _ ran

/-- A sequence is safe if its first part is, and its second part on the value of the first. -/
theorem safe_bind : (x >>= f).Safe allowed m ↔
    x.Safe allowed m ∧ ∀ a, x.run m = some (.ok a) → (f a).Safe allowed m := by
  induction x with
  | done result =>
    cases result with
    | error e => simp [Bind.bind, bind, Safe, run]
    | ok a => simp [Bind.bind, bind, Safe, run]
  | fault => simp [Bind.bind, bind, Safe]
  | read kind off n next ih =>
    have rest := ih (m.read off n)
    constructor
    · rintro ⟨may, safe⟩
      obtain ⟨first, second⟩ := rest.mp safe
      exact ⟨⟨may, first⟩, second⟩
    · rintro ⟨⟨may, first⟩, second⟩
      exact ⟨may, rest.mpr ⟨first, second⟩⟩

/-- The same for a first part of known value. -/
theorem safe_bind_ok {a : α} (first : x.run m = some (.ok a)) :
    (x >>= f).Safe allowed m ↔ x.Safe allowed m ∧ (f a).Safe allowed m := by
  rw [safe_bind, first]
  simp

/-- A safe program runs to a result, the same one on every block that agrees where reads are
allowed, and it is safe there. -/
theorem Safe.congr (safe : x.Safe allowed m)
    (same : ∀ kind off n, allowed kind off n → m.read off n = m'.read off n) :
    x.Safe allowed m' ∧ x.run m' = x.run m := by
  induction x with
  | done result => exact ⟨trivial, rfl⟩
  | fault => cases safe
  | read kind off n next ih =>
    obtain ⟨may, rest⟩ := safe
    have bytes := same kind off n may
    rw [Safe, run, run, ← bytes]
    exact ⟨⟨may, (ih _ rest).1⟩, (ih _ rest).2⟩

theorem Safe.ends (safe : x.Safe allowed m) : ∃ result, x.run m = some result := by
  induction x with
  | done result => exact ⟨result, rfl⟩
  | fault => cases safe
  | read kind off n next ih => exact ih _ safe.2

section Below

variable {bound : ℕ}

/-- The two judgements together. -/
theorem runBelow_eq_some {result : Except ε α} : x.runBelow bound m = some result ↔
    x.Safe (fun _ off n => off + n ≤ bound) m ∧ x.run m = some result := by
  induction x with
  | done result => simp [runBelow, run, Safe]
  | fault => simp [runBelow, run]
  | read kind off n next ih =>
    rw [runBelow, run, Safe]
    split_ifs with inside
    · rw [ih, and_iff_right inside]
    · simp [inside]

/-- A run has an outcome if and only if its reads are allowed and no fault occurs. -/
theorem runBelow_isSome :
    (x.runBelow bound m).isSome ↔ x.Safe (fun _ off n => off + n ≤ bound) m := by
  rw [Option.isSome_iff_exists]
  constructor
  · rintro ⟨result, ran⟩
    exact (runBelow_eq_some.mp ran).1
  · intro safe
    obtain ⟨result, ran⟩ := safe.ends
    exact ⟨result, runBelow_eq_some.mpr ⟨safe, ran⟩⟩

@[simp] theorem runBelow_pure (a : α) :
    (pure a : Reading κ ε α).runBelow bound m = some (.ok a) := rfl

@[simp] theorem runBelow_ite {cond : Prop} [Decidable cond] {y : Reading κ ε α} :
    (if cond then x else y).runBelow bound m =
      if cond then x.runBelow bound m else y.runBelow bound m :=
  apply_ite (runBelow bound m) cond x y

theorem runBelow_bind_ok {a : α} (first : x.runBelow bound m = some (.ok a)) :
    (x >>= f).runBelow bound m = (f a).runBelow bound m := by
  induction x with
  | done result =>
    obtain rfl := Option.some.inj first
    rfl
  | fault => cases first
  | read kind off n next ih =>
    rw [runBelow] at first
    split_ifs at first with inside
    exact (if_pos inside).trans (ih _ first)

end Below

/-- A program that terminates inside received bytes: whatever the block contained before and
contains behind them, it ends without a fault, reads only below their number, and ends with
the same result. -/
structure Contained (x : Reading κ ε α) (data : List UInt8) : Prop where
  ends : ∀ stale : Memory, ∃ result, x.run (stale.write 0 data) = some result
  inside : ∀ stale : Memory,
    x.Safe (fun _ off n => off + n ≤ data.length) (stale.write 0 data)
  same : ∀ stale stale' : Memory, x.run (stale.write 0 data) = x.run (stale'.write 0 data)

/-- One block decides for all. -/
theorem contained_of_safe {data : List UInt8} (stale : Memory)
    (safe : x.Safe (fun _ off n => off + n ≤ data.length) (stale.write 0 data)) :
    x.Contained data := by
  have elsewhere (stale' : Memory) : x.Safe (fun _ off n => off + n ≤ data.length)
      (stale'.write 0 data) ∧ x.run (stale'.write 0 data) = x.run (stale.write 0 data) := by
    refine safe.congr fun _ off n inside => Memory.read_congr fun i _ upper => ?_
    have below : i < data.length := by omega
    rw [← Nat.zero_add i, Memory.write_apply_inside below, Memory.write_apply_inside below]
  refine ⟨fun stale' => (elsewhere stale').1.ends, fun stale' => (elsewhere stale').1, ?_⟩
  intro stale₁ stale₂
  rw [(elsewhere stale₁).2, (elsewhere stale₂).2]

end Rules

/-! ### Numbers and strings -/

/-- The little-endian number in `n` bytes. -/
def num (kind : κ) (off n : ℕ) : Reading κ ε ℕ := read kind off n fun bytes => pure (leNat bytes)

/-- The characters of a string up to its end, at most `limit` of them. -/
def chars (kind : κ) : (off limit : ℕ) → Reading κ ε (List UInt8)
  | _, 0 => pure []
  | off, limit + 1 => read kind off 1 fun bytes =>
    if bytes = [0] then pure [] else do
      let rest ← chars kind (off + 1) limit
      return bytes ++ rest

/-- The characters of a string that must end within `limit` bytes. -/
def text (kind : κ) (off limit : ℕ) : Reading κ ε (List UInt8) := do
  let s ← chars kind off limit
  if s.length < limit then return s else fault

section Fields

variable {allowed : κ → ℕ → ℕ → Prop} {m : Memory} {kind : κ} {off n : ℕ}

@[simp] theorem run_num_bind (f : ℕ → Reading κ ε β) :
    (num kind off n >>= f).run m = (f (leNat (m.read off n))).run m :=
  run_bind_ok (show (num kind off n : Reading κ ε ℕ).run m = some (.ok _) from rfl)

@[simp] theorem safe_num_bind (f : ℕ → Reading κ ε β) : (num kind off n >>= f).Safe allowed m ↔
    allowed kind off n ∧ (f (leNat (m.read off n))).Safe allowed m := by
  rw [safe_bind_ok (show (num kind off n : Reading κ ε ℕ).run m = some (.ok _) from rfl), num, Safe]
  simp

theorem runBelow_num_bind {bound : ℕ} (inside : off + n ≤ bound) (f : ℕ → Reading κ ε β) :
    (num kind off n >>= f).runBelow bound m = (f (leNat (m.read off n))).runBelow bound m :=
  runBelow_bind_ok (show (num kind off n : Reading κ ε ℕ).runBelow bound m = some (.ok _) from
    if_pos inside)

/-- The bytes of a string with at most `limit` characters. -/
theorem run_chars {limit : ℕ} : (chars kind off limit : Reading κ ε _).run m =
    some (.ok ((m.read off limit).takeWhile (· ≠ 0))) := by
  induction limit generalizing off with
  | zero => rfl
  | succ limit ih =>
    have byte : m.read off 1 = [m off] := rfl
    rw [Nat.add_comm limit 1, Memory.read_add, byte, Nat.add_comm 1 limit, chars, run, byte]
    by_cases stop : m off = 0
    · simp [stop]
    · rw [if_neg (by simpa using stop), run_bind_ok ih]
      simp [stop]

variable {bound limit : ℕ}

/-- Reading a string stays below a bound if the string ends there or the limit does. -/
theorem safe_chars (within : ∀ p, allowed kind p 1 ↔ p < bound) :
    (chars kind off limit : Reading κ ε _).Safe allowed m ↔
      limit = 0 ∨ off + limit ≤ bound ∨ ∃ i, off + i < bound ∧ m (off + i) = 0 := by
  induction limit generalizing off with
  | zero => simp [chars]
  | succ limit ih =>
    have byte : m.read off 1 = [m off] := rfl
    rw [chars, Safe, within, byte]
    by_cases stop : m off = 0
    · rw [if_pos (by rw [stop])]
      constructor
      · rintro ⟨inside, -⟩
        exact .inr (.inr ⟨0, inside, stop⟩)
      · rintro (none | room | ⟨i, inside, -⟩)
        · cases none
        · exact ⟨by omega, trivial⟩
        · exact ⟨by omega, trivial⟩
    · rw [if_neg (by simpa using stop), safe_bind_ok run_chars, ih]
      simp only [safe_pure, and_true]
      constructor
      · rintro ⟨inside, rfl | room | ⟨i, below, ends⟩⟩
        · exact .inr (.inl inside)
        · exact .inr (.inl (by omega))
        · exact .inr (.inr ⟨i + 1, by omega, by rwa [Nat.add_right_comm] at ends⟩)
      · rintro (none | room | ⟨i, below, ends⟩)
        · cases none
        · exact ⟨by omega, .inr (.inl (by omega))⟩
        · -- The string does not end with its first character.
          obtain ⟨i, rfl⟩ : ∃ j, i = j + 1 := by
            cases i with
            | zero => exact absurd ends stop
            | succ i => exact ⟨i, rfl⟩
          exact ⟨by omega, .inr (.inr ⟨i, by omega, by rwa [Nat.add_right_comm]⟩)⟩

/-- A string has fewer characters than the limit if its end is found there. -/
theorem chars_lt_iff :
    ((m.read off limit).takeWhile (· ≠ 0)).length < limit ↔ ∃ i < limit, m (off + i) = 0 := by
  have le := (List.takeWhile_prefix (l := m.read off limit) (· ≠ 0)).length_le
  rw [Memory.read_length] at le
  have all : ((m.read off limit).takeWhile (· ≠ 0)).length = limit ↔
      (m.read off limit).takeWhile (· ≠ 0) = m.read off limit := by
    constructor
    · intro same
      exact (List.takeWhile_prefix _).eq_of_length (same.trans Memory.read_length.symm)
    · intro whole
      rw [whole, Memory.read_length]
  rw [Nat.lt_iff_le_and_ne, and_iff_right le, ne_eq, all, List.takeWhile_eq_self_iff]
  simp [Memory.read]

theorem safe_text (within : ∀ p, allowed kind p 1 ↔ p < bound) (room : bound ≤ off + limit) :
    (text kind off limit : Reading κ ε _).Safe allowed m ↔
      ∃ i, off + i < bound ∧ m (off + i) = 0 := by
  rw [text, safe_bind_ok run_chars, safe_chars within]
  by_cases found : ((m.read off limit).takeWhile (· ≠ 0)).length < limit
  · obtain ⟨i, inside, ends⟩ := chars_lt_iff.mp found
    rw [if_pos found]
    constructor
    · rintro ⟨none | full | below, -⟩
      · omega
      · exact ⟨i, by omega, ends⟩
      · exact below
    · intro below
      exact ⟨.inr (.inr below), trivial⟩
  · rw [if_neg found]
    constructor
    · rintro ⟨-, faulted⟩
      cases faulted
    · rintro ⟨i, below, ends⟩
      exact absurd (chars_lt_iff.mpr ⟨i, by omega, ends⟩) found

theorem run_text (safe : (text kind off limit : Reading κ ε _).Safe allowed m) :
    (text kind off limit : Reading κ ε _).run m =
      some (.ok ((m.read off limit).takeWhile (· ≠ 0))) := by
  rw [text, safe_bind_ok run_chars] at safe
  rw [text, run_bind_ok run_chars]
  split_ifs with found
  · rfl
  · rw [if_neg found] at safe
    cases safe.2

end Fields

/-! ### Loops -/

/-- A `for` loop. One that has not ended after the given number of tests counts as a fault. -/
def loop (test : P → Reading κ ε Bool) (next : P → Reading κ ε P)
    (body : P → σ → Reading κ ε σ) : ℕ → P → σ → Reading κ ε (P × σ)
  | 0, _, _ => fault
  | fuel + 1, p, s => do
    let more ← test p
    if more then do
      let s' ← body p s
      let p' ← next p
      loop test next body fuel p' s'
    else return (p, s)

section Loops

variable {allowed : κ → ℕ → ℕ → Prop} {m : Memory} {test : P → Reading κ ε Bool}
  {next : P → Reading κ ε P} {body : P → σ → Reading κ ε σ} {C : Cursor P}
  {effect : P → σ → Except ε σ} {fuel : ℕ} {p : P} {s : σ}

/-- A loop whose parts run like those of a `Cursor` runs like the loop of that cursor. -/
theorem run_loop (tests : ∀ p, (test p).run m = some (.ok (C.ok p)))
    (nexts : ∀ p, C.ok p = true → (next p).run m = some (.ok (C.next p)))
    (bodies : ∀ p s, C.ok p = true → (body p s).run m = some (effect p s))
    (enough : C.bound p < fuel) :
    (loop test next body fuel p s).run m = some (C.forEach effect p s) := by
  induction fuel generalizing p s with
  | zero => cases enough
  | succ fuel ih =>
    rw [loop, run_bind_ok (tests p)]
    cases go : C.ok p with
    | false =>
      rw [C.forEach_stop effect go]
      rfl
    | true =>
      have lower := C.descends p go
      rw [C.forEach_step effect go, if_pos rfl]
      cases done : effect p s with
      | error e =>
        rw [run_bind_error ((bodies p s go).trans (congrArg some done))]
        rfl
      | ok s' =>
        rw [run_bind_ok ((bodies p s go).trans (congrArg some done)), run_bind_ok (nexts p go),
          ih (by omega)]
        rfl

/-- The reads of a round: those of the test and, if it succeeds, those of the body and of what
follows unless the body leaves. -/
theorem safe_loop_succ (tests : (test p).run m = some (.ok (C.ok p)))
    (nexts : C.ok p = true → (next p).run m = some (.ok (C.next p)))
    (bodies : C.ok p = true → (body p s).run m = some (effect p s)) :
    (loop test next body (fuel + 1) p s).Safe allowed m ↔
      (test p).Safe allowed m ∧ (C.ok p = true →
        (body p s).Safe allowed m ∧ ∀ s', effect p s = .ok s' →
          (next p).Safe allowed m ∧ (loop test next body fuel (C.next p) s').Safe allowed m) := by
  rw [loop, safe_bind_ok tests]
  cases go : C.ok p with
  | false => simp
  | true =>
    simp only [if_true, true_imp_iff]
    rw [safe_bind, bodies go]
    simp only [Option.some.injEq]
    refine and_congr_right fun _ => and_congr_right fun _ => forall_congr' fun s' => ?_
    exact imp_congr_right fun _ => safe_bind_ok (nexts go)

/-- A loop is safe if an invariant of its positions makes every round safe. -/
theorem safe_loop (inv : P → σ → Prop) (tests : ∀ p, (test p).run m = some (.ok (C.ok p)))
    (nexts : ∀ p, C.ok p = true → (next p).run m = some (.ok (C.next p)))
    (bodies : ∀ p s, C.ok p = true → (body p s).run m = some (effect p s))
    (safe_test : ∀ p s, inv p s → (test p).Safe allowed m)
    (round : ∀ p s, inv p s → C.ok p = true → (body p s).Safe allowed m ∧
      ∀ s', effect p s = .ok s' → (next p).Safe allowed m ∧ inv (C.next p) s')
    (enough : C.bound p < fuel) (start : inv p s) :
    (loop test next body fuel p s).Safe allowed m := by
  induction fuel generalizing p s with
  | zero => cases enough
  | succ fuel ih =>
    rw [safe_loop_succ (tests p) (nexts p) (bodies p s)]
    refine ⟨safe_test p s start, fun go => ?_⟩
    have lower := C.descends p go
    obtain ⟨first, rest⟩ := round p s start go
    refine ⟨first, fun s' ran => ?_⟩
    obtain ⟨advance, keeps⟩ := rest s' ran
    exact ⟨advance, ih (by omega) keeps⟩

end Loops

end Reading

end LinuxProgram.Base
