import LinuxProgram.Base.Editing
import Mathlib.Data.List.DropRight

/-!
# Trimming a string in place

`trim` of the server removes blanks around a string. Its second pointer is moved behind the
terminator by `*end++`, and the backward scan starts there: the first byte it looks at is the
one behind the buffer. If that byte ends the scan, the copy goes up to it, terminator and all;
and the scan has no lower end, so that a string of blanks sends it before the buffer.

## Main definitions

* `trim` — the code
* `trimmed` — the string that should remain
* `Unharmed` — what the bytes around the buffer must be

## Main result

* `trim_reads_behind` — the byte behind the buffer is always read, and the string is trimmed
  inside the buffer exactly if the bytes around it are `Unharmed`
-/

namespace LinuxProgram.NetworkServer

open Base

/-! ### The code -/

/-- A leading blank: `' '` or `'\t'`. -/
def isLeading (c : UInt8) : Bool := c = 32 || c = 9

/-- What the backward scan passes: `'\0'`, `' '`, `'\t'` or `'\n'`. -/
def isTrailing (c : UInt8) : Bool := c = 0 || c = 32 || c = 9 || c = 10

/-- `while (*end++);` -/
def skipString : (fuel : ℕ) → (stop : ℕ) → Editing ℕ
  | 0, _ => .fault
  | fuel + 1, stop => .load stop fun c =>
    if c ≠ 0 then skipString fuel (stop + 1) else return stop + 1

/-- `while (*begin == ' ' || *begin == '\t') ++begin;` -/
def skipLeading : (fuel : ℕ) → (begin : ℕ) → Editing ℕ
  | 0, _ => .fault
  | fuel + 1, begin => .load begin fun c =>
    if isLeading c then skipLeading fuel (begin + 1) else return begin

/-- `while (*end == '\0' || …) --end;` There is nothing before the first byte of memory. -/
def skipTrailing : (stop : ℕ) → Editing ℕ
  -- `--end` would leave the memory.
  | 0 => .load 0 fun c => if isTrailing c then .fault else return 0
  | stop + 1 => .load (stop + 1) fun c =>
    if isTrailing c then skipTrailing stop else return stop + 1

/-- `while (begin != end) *src++ = *begin++;` -/
def copyForward : (fuel : ℕ) → (src begin stop : ℕ) → Editing ℕ
  | 0, _, _, _ => .fault
  | fuel + 1, src, begin, stop =>
    if begin ≠ stop then
      .load begin fun c => .store src c (copyForward fuel (src + 1) (begin + 1) stop)
    else return src

/-- The rest of `trim` once both pointers are in place. -/
def trimBetween (fuel src begin stop : ℕ) : Editing Unit :=
  if begin > stop then
    .store src 0 (return)
  else do
    let src ← copyForward fuel src begin stop
    .load stop fun c => .store src c (.store (src + 1) 0 (return))

/-- `trim`. Each loop has at most `fuel` rounds. -/
def trim (fuel src : ℕ) : Editing Unit := do
  let begin := src
  let stop ← skipString fuel src
  -- This is meant for the empty string, but `end` is behind the terminator by now.
  if begin = stop then return
  let begin ← skipLeading fuel begin
  let stop ← skipTrailing stop
  trimBetween fuel src begin stop

/-! ### The scans -/

section Scans

variable {m : Memory} {src begin stop fuel : ℕ} {s : List UInt8}

theorem skipString_spec (held : m.Holds src (s ++ [0])) (text : 0 ∉ s) (enough : s.length < fuel) :
    (skipString fuel src).run m = some (src + s.length + 1, m) := by
  induction s generalizing src fuel with
  | nil =>
    obtain ⟨fuel, rfl⟩ : ∃ f, fuel = f + 1 := ⟨fuel - 1, by omega⟩
    have ends : m src = 0 := (Memory.holds_cons.mp held).1
    simp [skipString, Editing.run, ends]
  | cons c s ih =>
    obtain ⟨fuel, rfl⟩ : ∃ f, fuel = f + 1 := ⟨fuel - 1, by omega⟩
    obtain ⟨char, rest⟩ := Memory.holds_cons.mp held
    rw [List.mem_cons, not_or] at text
    rw [skipString, Editing.run, char, if_pos (Ne.symm text.1),
      ih rest text.2 (by rw [List.length_cons] at enough; omega), List.length_cons]
    congr 2
    omega

theorem skipLeading_spec (held : m.Holds src (s ++ [0])) (enough : s.length < fuel) :
    (skipLeading fuel src).run m = some (src + (s.takeWhile isLeading).length, m) := by
  induction s generalizing src fuel with
  | nil =>
    obtain ⟨fuel, rfl⟩ : ∃ f, fuel = f + 1 := ⟨fuel - 1, by omega⟩
    have ends : m src = 0 := (Memory.holds_cons.mp held).1
    simp [skipLeading, Editing.run, ends, isLeading]
  | cons c s ih =>
    obtain ⟨fuel, rfl⟩ : ∃ f, fuel = f + 1 := ⟨fuel - 1, by omega⟩
    obtain ⟨char, rest⟩ := Memory.holds_cons.mp held
    rw [skipLeading, Editing.run, char]
    cases blank : isLeading c with
    | false => simp [blank]
    | true =>
      rw [if_pos rfl, ih rest (by rw [List.length_cons] at enough; omega),
        List.takeWhile_cons_of_pos blank, List.length_cons]
      congr 2
      omega

/-- The backward scan ends at the last byte that stops it. -/
theorem skipTrailing_spec (last : isTrailing (m stop) = false) {n : ℕ}
    (passed : ∀ i, i < n → isTrailing (m (stop + i + 1)) = true) :
    (skipTrailing (stop + n)).run m = some (stop, m) := by
  induction n with
  | zero =>
    cases stop with
    | zero => simp [skipTrailing, Editing.run, last]
    | succ stop => simp [skipTrailing, Editing.run, last]
  | succ n ih =>
    have here := passed n (by omega)
    rw [← Nat.add_assoc, skipTrailing, Editing.run, here, if_pos rfl]
    exact ih fun i lower => passed i (by omega)

/-- Without such a byte it leaves the memory. -/
theorem skipTrailing_fault (passed : ∀ p ≤ stop, isTrailing (m p) = true) :
    (skipTrailing stop).run m = none := by
  induction stop with
  | zero => simp [skipTrailing, Editing.run, passed]
  | succ stop ih =>
    rw [skipTrailing, Editing.run, passed _ le_rfl, if_pos rfl]
    exact ih fun p lower => passed p (by omega)

/-- The backward scan starts with the byte that it is given. -/
theorem skipTrailing_reads (m : Memory) (stop : ℕ) :
    Access.read stop ∈ (skipTrailing stop).accesses m := by
  cases stop <;> exact List.mem_cons_self

end Scans

/-! ### The stores -/

section Stores

variable {m : Memory} {src begin stop fuel n p : ℕ} {s : List UInt8}

theorem skipString_looks : Access.write p ∉ (skipString fuel src).accesses m := by
  induction fuel generalizing src with
  | zero => exact List.not_mem_nil
  | succ fuel ih =>
    rw [skipString, Editing.accesses]
    split_ifs
    · simpa using ih
    · simp

theorem skipLeading_looks : Access.write p ∉ (skipLeading fuel src).accesses m := by
  induction fuel generalizing src with
  | zero => exact List.not_mem_nil
  | succ fuel ih =>
    rw [skipLeading, Editing.accesses]
    split_ifs
    · simpa using ih
    · simp

theorem skipTrailing_looks : Access.write p ∉ (skipTrailing stop).accesses m := by
  induction stop with
  | zero =>
    rw [skipTrailing, Editing.accesses]
    split_ifs <;> simp [Editing.accesses]
  | succ stop ih =>
    rw [skipTrailing, Editing.accesses]
    split_ifs
    · simpa using ih
    · simp

/-- The copy moves the bytes down as if they were stored at once: no byte is stored before it
has been read. -/
theorem copyForward_spec (down : src ≤ begin) (enough : n < fuel) :
    (copyForward fuel src begin (begin + n)).run m =
        some (src + n, m.write src (m.read begin n)) ∧
      ∀ p, Access.write p ∈ (copyForward fuel src begin (begin + n)).accesses m ↔
        src ≤ p ∧ p < src + n := by
  induction n generalizing m src begin fuel with
  | zero =>
    obtain ⟨fuel, rfl⟩ : ∃ f, fuel = f + 1 := ⟨fuel - 1, by omega⟩
    have nothing : m.write src (m.read begin 0) = m := by
      funext i
      exact Memory.write_apply_outside (by simp; omega)
    simp [copyForward, nothing]
  | succ n ih =>
    obtain ⟨fuel, rfl⟩ : ∃ f, fuel = f + 1 := ⟨fuel - 1, by omega⟩
    obtain ⟨ran, wrote⟩ := ih (m := m.write src [m begin])
      (show src + 1 ≤ begin + 1 by omega) (show n < fuel by omega)
    -- The byte just stored lies below those that are still to be read.
    have ahead : (m.write src [m begin]).read (begin + 1) n = m.read (begin + 1) n :=
      Memory.read_write_apart (.inr (by simpa using down))
    have joined : (m.write src [m begin]).write (src + 1) (m.read (begin + 1) n) =
        m.write src (m.read begin (n + 1)) := by
      rw [Nat.add_comm n 1, Memory.read_add]
      exact Memory.write_write_adjacent
    have target : begin + (n + 1) = begin + 1 + n := by omega
    rw [copyForward, if_pos (by omega), target]
    constructor
    · rw [Editing.run, Editing.run, ran, ahead, joined]
      congr 2
      omega
    · intro p
      rw [Editing.accesses, Editing.accesses, List.mem_cons, List.mem_cons, wrote]
      constructor
      · rintro (impossible | here | later)
        · cases impossible
        · cases here
          omega
        · omega
      · intro inside
        by_cases here : p = src
        · exact .inr (.inl (congrArg Access.write here))
        · exact .inr (.inr (by omega))

/-- The string was all blanks. -/
theorem trimBetween_empty (crossed : stop < begin) :
    (trimBetween fuel src begin stop).run m = some ((), m.write src [0]) ∧
      ∀ p, Access.write p ∈ (trimBetween fuel src begin stop).accesses m ↔ p = src := by
  rw [trimBetween, if_pos crossed]
  exact ⟨rfl, fun p => by simp [Editing.accesses]⟩

/-- The bytes from the one pointer to the other, both included, and a terminator. -/
theorem trimBetween_copy (down : src ≤ begin) (enough : n < fuel) :
    (trimBetween fuel src begin (begin + n)).run m =
        some ((), m.write src (m.read begin (n + 1) ++ [0])) ∧
      ∀ p, Access.write p ∈ (trimBetween fuel src begin (begin + n)).accesses m ↔
        src ≤ p ∧ p ≤ src + n + 1 := by
  obtain ⟨ran, wrote⟩ := @copyForward_spec m src begin fuel n down enough
  -- The last byte is read again, after the copy.
  have last : m.write src (m.read begin n) (begin + n) = m (begin + n) :=
    Memory.write_apply_of_ge (by rw [Memory.read_length]; omega)
  have joined : ((m.write src (m.read begin n)).write (src + n) [m (begin + n)]).write
      (src + n + 1) [0] = m.write src (m.read begin (n + 1) ++ [0]) := by
    have whole := @Memory.write_write_adjacent (m.write src (m.read begin n)) (src + n)
      [m (begin + n)] [0]
    have chars := @Memory.write_write_adjacent m src (m.read begin n) ([m (begin + n)] ++ [0])
    rw [Memory.read_length] at chars
    exact whole.trans (chars.trans (by rw [Memory.read_add, List.append_assoc]; rfl))
  rw [trimBetween, if_neg (by omega)]
  constructor
  · rw [Editing.run_bind ran, Editing.run, Editing.run, Editing.run, last, joined]
    rfl
  · intro p
    rw [Editing.mem_accesses_bind ran, wrote]
    simp only [Editing.accesses, List.mem_cons, Access.write.injEq, reduceCtorEq, false_or,
      Editing.accesses_pure, List.not_mem_nil, or_false]
    omega

variable (held : m.Holds src (s ++ [0])) (text : 0 ∉ s) (enough : s.length < fuel)
include held text enough

/-- The byte behind the terminator is read. -/
theorem trim_reads : Access.read (src + s.length + 1) ∈ (trim fuel src).accesses m := by
  rw [trim, Editing.mem_accesses_bind (skipString_spec held text enough), if_neg (by omega),
    Editing.mem_accesses_bind (skipLeading_spec held enough)]
  exact .inr (.inr (Editing.mem_accesses_bind_left (skipTrailing_reads m _)))

theorem trim_run : (trim fuel src).run m = (skipTrailing (src + s.length + 1) >>=
    trimBetween fuel src (src + (s.takeWhile isLeading).length)).run m := by
  rw [trim, Editing.run_bind (skipString_spec held text enough), if_neg (by omega),
    Editing.run_bind (skipLeading_spec held enough)]

/-- Once the backward scan has stopped. -/
theorem trim_stopped (back : (skipTrailing (src + s.length + 1)).run m = some (stop, m)) :
    (trim fuel src).run m =
        (trimBetween fuel src (src + (s.takeWhile isLeading).length) stop).run m ∧
      ∀ p, Access.write p ∈ (trim fuel src).accesses m ↔ Access.write p ∈
        (trimBetween fuel src (src + (s.takeWhile isLeading).length) stop).accesses m := by
  refine ⟨(trim_run held text enough).trans (Editing.run_bind back), fun p => ?_⟩
  rw [trim, Editing.mem_accesses_bind (skipString_spec held text enough),
    or_iff_right skipString_looks, if_neg (by omega),
    Editing.mem_accesses_bind (skipLeading_spec held enough), or_iff_right skipLeading_looks,
    Editing.mem_accesses_bind back, or_iff_right skipTrailing_looks]

end Stores

/-! ### What should remain -/

/-- A space, a tab or a newline. -/
def isBlank (c : UInt8) : Bool := c = 32 || c = 9 || c = 10

/-- The string without leading spaces and tabs and without trailing blanks. -/
def trimmed (s : List UInt8) : List UInt8 := (s.dropWhile isLeading).rdropWhile isBlank

/-- On a string in a buffer of its own size, `trim` stores inside the buffer only and leaves the
trimmed string there. -/
structure Edits (m : Memory) (fuel src : ℕ) (s : List UInt8) : Prop where
  writes_inside : ∀ p, Access.write p ∈ (trim fuel src).accesses m →
    src ≤ p ∧ p ≤ src + s.length
  leaves : ∃ m', (trim fuel src).run m = some ((), m') ∧ m'.Holds src (trimmed s ++ [0])

/-- And it reads inside the buffer only. -/
structure Trims (m : Memory) (fuel src : ℕ) (s : List UInt8) : Prop
    extends Edits m fuel src s where
  reads_inside : ∀ p, Access.read p ∈ (trim fuel src).accesses m → src ≤ p ∧ p ≤ src + s.length

/-- The bytes around the buffer do no harm. Either the byte behind it lets the backward scan
pass, and a character of the string or a byte before the buffer ends the scan; or it ends the scan
itself, and two leading blanks make room for it and another terminator, behind a string that has
nothing to lose at its end. -/
def Unharmed (m : Memory) (src : ℕ) (s : List UInt8) : Prop :=
  if isTrailing (m (src + s.length + 1)) then
    (∃ c ∈ s, isBlank c = false) ∨ ∃ p < src, isTrailing (m p) = false
  else 2 ≤ (s.takeWhile isLeading).length ∧
    ∀ c ∈ (s.dropWhile isLeading).getLast?, isBlank c = false

section Strings

variable {s u v : List UInt8} {c : UInt8}

theorem isTrailing_eq (c : UInt8) : isTrailing c = (decide (c = 0) || isBlank c) := by
  simp [isTrailing, isBlank, Bool.or_assoc]

/-- The last element without a property. -/
theorem exists_last {α : Type} {f : α → Bool} {s : List α} (some_char : ∃ c ∈ s, f c = false) :
    ∃ u c v, s = u ++ c :: v ∧ f c = false ∧ ∀ d ∈ v, f d = true := by
  induction s with
  | nil =>
    obtain ⟨c, impossible, -⟩ := some_char
    cases impossible
  | cons a s ih =>
    by_cases later : ∃ c ∈ s, f c = false
    · obtain ⟨u, c, v, rfl, stops, passed⟩ := ih later
      exact ⟨a :: u, c, v, rfl, stops, passed⟩
    · obtain ⟨c, inside, stops⟩ := some_char
      rcases List.mem_cons.mp inside with rfl | inside
      · exact ⟨[], c, s, rfl, stops, fun d mem => by
          by_contra other
          exact later ⟨d, mem, by simpa using other⟩⟩
      · exact absurd ⟨c, inside, stops⟩ later

theorem drop_takeWhile_length (f : UInt8 → Bool) (s : List UInt8) :
    s.drop (s.takeWhile f).length = s.dropWhile f := by
  calc s.drop (s.takeWhile f).length
      = (s.takeWhile f ++ s.dropWhile f).drop (s.takeWhile f).length := by
        rw [List.takeWhile_append_dropWhile]
    _ = s.dropWhile f := List.drop_left

theorem not_isLeading (stops : isBlank c = false) : isLeading c = false := by
  simp only [isBlank, Bool.or_eq_false_iff] at stops
  simp only [isLeading, Bool.or_eq_false_iff]
  exact stops.1

theorem takeWhile_stopped (stops : isBlank c = false) :
    (u ++ c :: v).takeWhile isLeading = u.takeWhile isLeading := by
  rw [List.takeWhile_append]
  split_ifs with whole
  · rw [List.takeWhile_cons_of_neg (by simp [not_isLeading stops]), List.append_nil]
    exact ((List.takeWhile_prefix _).eq_of_length whole).symm
  · rfl

theorem trimmed_stopped (stops : isBlank c = false) (passed : ∀ d ∈ v, isBlank d = true) :
    trimmed (u ++ c :: v) = u.dropWhile isLeading ++ [c] := by
  have led : (u ++ c :: v).dropWhile isLeading = u.dropWhile isLeading ++ [c] ++ v := by
    rw [← drop_takeWhile_length, takeWhile_stopped stops, ← drop_takeWhile_length,
      List.append_assoc]
    exact List.drop_append_of_le_length (List.takeWhile_prefix _).length_le
  rw [trimmed, led, List.rdropWhile, List.reverse_append,
    List.dropWhile_append_of_pos fun d mem => passed d (List.mem_reverse.mp mem),
    List.reverse_append, List.reverse_singleton, List.singleton_append,
    List.dropWhile_cons_of_neg (by simp [stops]), List.reverse_cons, List.reverse_reverse]

theorem trimmed_blank (blank : ∀ c ∈ s, isBlank c = true) : trimmed s = [] :=
  List.rdropWhile_eq_nil_iff.mpr fun c mem =>
    blank c ((List.dropWhile_suffix _).subset mem)

end Strings

/-! ### The effect -/

section Effect

variable {m : Memory} {fuel src : ℕ} {s : List UInt8}
variable (held : m.Holds src (s ++ [0])) (text : 0 ∉ s) (enough : s.length + 1 < fuel)

include held in
/-- The bytes up to the one behind the buffer, from the first character that is kept. -/
theorem read_behind : m.read (src + (s.takeWhile isLeading).length)
    (s.length + 1 - (s.takeWhile isLeading).length + 1) =
      s.dropWhile isLeading ++ [0] ++ [m (src + s.length + 1)] := by
  have behind : m.Holds src (s ++ [0] ++ [m (src + s.length + 1)]) := by
    rw [Memory.holds_append]
    refine ⟨held, ?_⟩
    rw [List.length_append, List.length_singleton, ← Nat.add_assoc]
    rfl
  have le := (List.takeWhile_prefix (l := s) isLeading).length_le
  rw [behind.read_eq (by simp; omega), List.append_assoc, List.drop_append_of_le_length le,
    drop_takeWhile_length, List.append_assoc]
  apply List.take_of_length_le
  have split := congrArg List.length (List.takeWhile_append_dropWhile (p := isLeading) (l := s))
  simp only [List.length_append, List.length_cons, List.length_nil] at split ⊢
  omega

omit held text enough in
/-- Blanks and the terminator behind them let the backward scan pass. -/
theorem passes_blanks {p i : ℕ} {v : List UInt8} (held : m.Holds p (v ++ [0]))
    (blank : ∀ c ∈ v, isBlank c = true) (below : i ≤ v.length) :
    isTrailing (m (p + i)) = true := by
  have inside : i < (v ++ [0]).length := by
    rw [List.length_append, List.length_singleton]
    omega
  have member : (v ++ [0])[i] ∈ v ++ [0] := List.getElem_mem inside
  rw [held.getElem inside, isTrailing_eq]
  rcases List.mem_append.mp member with char | ends
  · rw [blank _ char, Bool.or_true]
  · rw [List.mem_singleton.mp ends]
    rfl

include held text enough

/-- The byte behind the buffer ends the backward scan. -/
theorem edits_iff_of_stop (stops : isTrailing (m (src + s.length + 1)) = false) :
    Edits m fuel src s ↔ 2 ≤ (s.takeWhile isLeading).length ∧
      ∀ c ∈ (s.dropWhile isLeading).getLast?, isBlank c = false := by
  have le := (List.takeWhile_prefix (l := s) isLeading).length_le
  have back : (skipTrailing (src + s.length + 1)).run m = some (src + s.length + 1, m) :=
    @skipTrailing_spec m _ stops 0 fun i impossible => absurd impossible (Nat.not_lt_zero i)
  obtain ⟨ran, wrote⟩ := trim_stopped held text (show s.length < fuel by omega) back
  -- The copy goes from the first character that is kept up to the byte behind the buffer.
  have far : src + s.length + 1 = src + (s.takeWhile isLeading).length +
      (s.length + 1 - (s.takeWhile isLeading).length) := by omega
  obtain ⟨between, writes⟩ := @trimBetween_copy m src (src + (s.takeWhile isLeading).length) fuel
    (s.length + 1 - (s.takeWhile isLeading).length) (by omega) (by omega)
  rw [← far] at between writes
  rw [between, read_behind held] at ran
  -- What is left is the string without its leading blanks: its terminator has been copied.
  have left : (m.write src (s.dropWhile isLeading ++ [0] ++ [m (src + s.length + 1)] ++ [0])).Holds
      src (s.dropWhile isLeading ++ [0]) := by
    have all := @Memory.holds_write m src
      (s.dropWhile isLeading ++ [0] ++ [m (src + s.length + 1)] ++ [0])
    exact (Memory.holds_append.mp (Memory.holds_append.mp all).1).1
  have text' : 0 ∉ s.dropWhile isLeading := fun mem => text ((List.dropWhile_suffix _).subset mem)
  have unchanged : trimmed s = s.dropWhile isLeading ↔
      ∀ c ∈ (s.dropWhile isLeading).getLast?, isBlank c = false := by
    rw [trimmed, List.rdropWhile_eq_self_iff]
    constructor
    · intro keeps c last
      have nonempty : s.dropWhile isLeading ≠ [] := by
        rintro nothing
        rw [nothing] at last
        cases last
      rw [List.getLast?_eq_some_getLast nonempty] at last
      simpa [Option.some.inj last] using keeps nonempty
    · intro keeps nonempty
      simp [keeps _ (List.getLast?_eq_some_getLast nonempty)]
  constructor
  · rintro ⟨writes_inside, m', ran', holds⟩
    obtain rfl : _ = m' := (Prod.mk.inj (Option.some.inj (ran.symm.trans ran'))).2
    refine ⟨?_, unchanged.mp (holds.string_unique left ?_ text')⟩
    · -- The terminator behind that byte is the last store.
      have last := writes_inside (src + (s.length + 1 - (s.takeWhile isLeading).length) + 1)
        ((wrote _).mpr ((writes _).mpr (by omega)))
      omega
    · exact fun mem => text' ((List.rdropWhile_prefix _ _).subset mem)
  · rintro ⟨room, keeps⟩
    refine ⟨fun p mem => ?_, _, ran, ?_⟩
    · have := (writes p).mp ((wrote p).mp mem)
      omega
    · rwa [unchanged.mpr keeps]

/-- The byte behind the buffer is passed, and a character of the string ends the scan. -/
theorem edits_of_char (passes : isTrailing (m (src + s.length + 1)) = true)
    (some_char : ∃ c ∈ s, isBlank c = false) : Edits m fuel src s := by
  -- `c` is the last character that stays, and `v` are the blanks behind it.
  obtain ⟨u, c, v, rfl, stops, passed⟩ := exists_last some_char
  have front : m.Holds src (u ++ [c] ++ (v ++ [0])) := by simpa using held
  obtain ⟨front, behind⟩ := Memory.holds_append.mp front
  have char : m (src + u.length) = c := by
    have last := front.getElem (i := u.length) (by simp)
    simpa using last
  have nonzero : c ≠ 0 := by
    rintro rfl
    exact text (by simp)
  have back : (skipTrailing (src + (u ++ c :: v).length + 1)).run m =
      some (src + u.length, m) := by
    have scan := @skipTrailing_spec m (src + u.length)
      (by rw [char, isTrailing_eq, stops, Bool.or_false]; exact decide_eq_false nonzero)
      (v.length + 2) ?_
    · rw [← scan]
      congr 2
      simp
      omega
    · intro i below
      rcases Nat.lt_or_ge i (v.length + 1) with inside | outside
      · rw [show src + u.length + i + 1 = src + (u ++ [c]).length + i by simp; omega]
        exact passes_blanks behind passed (by omega)
      · rw [show src + u.length + i + 1 = src + (u ++ c :: v).length + 1 by simp; omega]
        exact passes
  have lead := @takeWhile_stopped u v c stops
  have le := (List.takeWhile_prefix (l := u) isLeading).length_le
  obtain ⟨ran, wrote⟩ := trim_stopped held text (Nat.lt_of_succ_lt enough) back
  rw [lead] at ran wrote
  obtain ⟨between, writes⟩ := @trimBetween_copy m src (src + (u.takeWhile isLeading).length) fuel
    (u.length - (u.takeWhile isLeading).length) (by omega)
    (by rw [List.length_append] at enough; omega)
  rw [show src + (u.takeWhile isLeading).length + (u.length - (u.takeWhile isLeading).length) =
    src + u.length by omega] at between writes
  have bytes : m.read (src + (u.takeWhile isLeading).length)
      (u.length - (u.takeWhile isLeading).length + 1) = trimmed (u ++ c :: v) := by
    rw [front.read_eq (by simp; omega), List.drop_append_of_le_length le, drop_takeWhile_length,
      trimmed_stopped stops passed]
    apply List.take_of_length_le
    rw [← drop_takeWhile_length, List.length_append, List.length_drop, List.length_singleton]
  rw [between, bytes] at ran
  refine ⟨fun p mem => ?_, _, ran, Memory.holds_write⟩
  have stored := (writes p).mp ((wrote p).mp mem)
  rw [List.length_append, List.length_cons]
  omega

/-- The byte behind the buffer and the whole string are passed. -/
theorem edits_iff_of_blank (passes : isTrailing (m (src + s.length + 1)) = true)
    (blank : ∀ c ∈ s, isBlank c = true) :
    Edits m fuel src s ↔ ∃ p < src, isTrailing (m p) = false := by
  have passed (i : ℕ) (below : i ≤ s.length + 1) : isTrailing (m (src + i)) = true := by
    rcases Nat.lt_or_ge i (s.length + 1) with inside | outside
    · exact passes_blanks held blank (by omega)
    · obtain rfl : i = s.length + 1 := by omega
      exact passes
  constructor
  · rintro ⟨-, m', ran, -⟩
    by_contra none_before
    -- Nothing ends the scan, which runs off the memory.
    have fault : (skipTrailing (src + s.length + 1)).run m = none := by
      apply skipTrailing_fault
      intro p below
      rcases Nat.lt_or_ge p src with before | inside
      · by_contra stops
        exact none_before ⟨p, before, by simpa using stops⟩
      · obtain ⟨i, rfl⟩ := Nat.exists_eq_add_of_le inside
        exact passed i (by omega)
    rw [trim_run held text (by omega), Editing.run_bind_fault fault] at ran
    cases ran
  · rintro ⟨p, before, stops⟩
    -- The scan ends at the last such byte.
    obtain ⟨q, before, stops, later⟩ : ∃ q < src, isTrailing (m q) = false ∧
        ∀ k, q < k → k < src → isTrailing (m k) = true := by
      refine ⟨Nat.findGreatest (fun k => isTrailing (m k) = false) (src - 1), ?_, ?_, ?_⟩
      · have := Nat.findGreatest_le (P := fun k => isTrailing (m k) = false) (src - 1)
        omega
      · exact Nat.findGreatest_spec (P := fun k => isTrailing (m k) = false)
          (show p ≤ src - 1 by omega) stops
      · intro k above below
        simpa using Nat.findGreatest_is_greatest above (by omega)
    have back : (skipTrailing (src + s.length + 1)).run m = some (q, m) := by
      have scan := @skipTrailing_spec m q stops (src + s.length + 1 - q) ?_
      · rwa [show q + (src + s.length + 1 - q) = src + s.length + 1 by omega] at scan
      · intro i below
        rcases Nat.lt_or_ge (q + i + 1) src with outside | inside
        · exact later _ (by omega) outside
        · obtain ⟨j, position⟩ := Nat.exists_eq_add_of_le inside
          rw [position]
          exact passed j (by omega)
    obtain ⟨ran, wrote⟩ := trim_stopped held text (Nat.lt_of_succ_lt enough) back
    obtain ⟨between, writes⟩ := @trimBetween_empty m src
      (src + (s.takeWhile isLeading).length) q fuel (by omega)
    refine ⟨fun p mem => ?_, _, ran.trans between, ?_⟩
    · have := (writes p).mp ((wrote p).mp mem)
      omega
    · rw [trimmed_blank blank]
      exact Memory.holds_write

end Effect

/-- On every string in a buffer of its own size, `trim` reads the byte behind the buffer. It
stores inside the buffer only and leaves the trimmed string exactly if the bytes around the buffer
do no harm. -/
theorem trim_reads_behind {m : Memory} {fuel src : ℕ} {s : List UInt8}
    (held : m.Holds src (s ++ [0])) (text : 0 ∉ s) (enough : s.length + 1 < fuel) :
    ¬ Trims m fuel src s ∧ (Edits m fuel src s ↔ Unharmed m src s) := by
  constructor
  · rintro ⟨-, reads_inside⟩
    have := reads_inside _ (trim_reads held text (by omega))
    omega
  · unfold Unharmed
    split_ifs with passes
    · by_cases some_char : ∃ c ∈ s, isBlank c = false
      · exact iff_of_true (edits_of_char held text enough passes some_char) (.inl some_char)
      · rw [or_iff_right some_char]
        apply edits_iff_of_blank held text enough passes
        intro c mem
        by_contra other
        exact some_char ⟨c, mem, by simpa using other⟩
    · exact edits_iff_of_stop held text enough (by simpa using passes)

/-- A buffer with the string `"ab "`, before and behind which there is one byte of other data. -/
def surrounded (before behind : UInt8) : Memory :=
  Memory.write (fun _ => 0) 0 [before, 97, 98, 32, 0, behind]

/-- With a zero byte behind the buffer the string is trimmed. -/
theorem trim_reads_behind_zero :
    (surrounded 0 0).Holds 1 ([97, 98, 32] ++ [0]) ∧ ¬ Trims (surrounded 0 0) 9 1 [97, 98, 32] ∧
      (Edits (surrounded 0 0) 9 1 [97, 98, 32] ↔ Unharmed (surrounded 0 0) 1 [97, 98, 32]) :=
  ⟨rfl, trim_reads_behind rfl (by decide) (by decide)⟩

/-- With an `x` behind the buffer nothing is trimmed, and two bytes are stored behind the
buffer. -/
theorem trim_overruns :
    ((trim 9 1).run (surrounded 0 120)).map (fun r => r.2.read 0 8) =
        some [0, 97, 98, 32, 0, 120, 0, 0] ∧
      Access.write 6 ∈ (trim 9 1).accesses (surrounded 0 120) ∧
      ¬ Trims (surrounded 0 120) 9 1 [97, 98, 32] := by
  have wrote : Access.write 6 ∈ (trim 9 1).accesses (surrounded 0 120) := by decide
  refine ⟨by decide, wrote, fun trims => ?_⟩
  have inside := (trims.writes_inside 6 wrote).2
  exact absurd inside (by decide)

end LinuxProgram.NetworkServer
