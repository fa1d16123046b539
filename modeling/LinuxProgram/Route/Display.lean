import LinuxProgram.Base.Editing
import LinuxProgram.Base.Iteration
import LinuxProgram.Base.Text
import Mathlib.Logic.Function.Basic

/-!
# Displaying routes

Two pieces of `network/route.c` that work in place on arrays. `set_flags` writes the
column of flags: it stores every letter, and moves on only past those whose flag is
set. `INET6_displayroutes` reads two addresses of 32 hexadecimal digits into the tail
of an array and shifts them to the front, with a colon after every fourth digit; the
array is both source and destination of the copy.

## Main definitions

* `setFlags` — `set_flags`
* `shiftRound` — one round of the shift in `INET6_displayroutes`

## Main results

* `setFlags_text` — what the column says, and which bytes are written
* `flag_column_injective` — the column shows which of its flags are set
* `shift_outcome` — which pairs of addresses pass, and what becomes of them
-/

namespace LinuxProgram.Route

open Base

/-! ### The column of flags -/

/-- A letter of `flagchars` with its entry of `flagvals`. -/
structure FlagLetter where
  char : UInt8
  val : ℕ
  deriving DecidableEq, Repr

/-- The letters for IPv4. -/
def flagLetters4 : List FlagLetter :=
  [⟨0x47, 0x0002⟩, ⟨0x48, 0x0004⟩, ⟨0x52, 0x0008⟩, ⟨0x44, 0x0010⟩, ⟨0x4D, 0x0020⟩]

/-- The letters that support for IPv6 adds. -/
def flagLetters6 : List FlagLetter := [⟨0x44, 0x00010000⟩, ⟨0x41, 0x00040000⟩, ⟨0x43, 0x01000000⟩]

/-- `flagchars` and `flagvals`. -/
def flagLetters : List FlagLetter := flagLetters4 ++ flagLetters6

/-- `IPV4_MASK`. -/
def ipv4Mask : ℕ := 0x003E

/-- `IPV6_MASK`. -/
def ipv6Mask : ℕ := 0x01050006

/-- The loop of `set_flags`. The terminator of `flagchars` ends it, and is stored too. -/
def setFlagsLoop (flags : ℕ) : List FlagLetter → Memory → ℕ → Memory
  | [], m, flagstr => Function.update m flagstr 0
  | l :: rest, m, flagstr =>
    setFlagsLoop flags rest (Function.update m flagstr l.char)
      (if flags &&& l.val ≠ 0 then flagstr + 1 else flagstr)

/-- `set_flags`. -/
def setFlags (letters : List FlagLetter) (m : Memory) (flagstr flags : ℕ) : Memory :=
  setFlagsLoop flags letters (Function.update m flagstr 0x55) (flagstr + 1)

/-- The letters of the flags that are set. -/
def shown (letters : List FlagLetter) (flags : ℕ) : List UInt8 :=
  (letters.filter fun l => flags &&& l.val ≠ 0).map FlagLetter.char

section Flags

variable {letters : List FlagLetter} {m : Memory} {flags flagstr : ℕ}

theorem shown_cons (l : FlagLetter) (rest : List FlagLetter) (flags : ℕ) :
    shown (l :: rest) flags =
      if flags &&& l.val ≠ 0 then l.char :: shown rest flags else shown rest flags := by
  by_cases set : flags &&& l.val ≠ 0 <;> simp [shown, set]

/-- What the loop leaves, and that it writes nowhere else. -/
theorem setFlagsLoop_spec (flags : ℕ) (letters : List FlagLetter) (m : Memory) (p : ℕ) :
    (setFlagsLoop flags letters m p).Holds p (shown letters flags ++ [0]) ∧
      ∀ i, i < p ∨ p + (shown letters flags).length < i →
        setFlagsLoop flags letters m p i = m i := by
  induction letters generalizing m p with
  | nil =>
    refine ⟨?_, fun i outside => ?_⟩
    · simp [setFlagsLoop, shown, Memory.Holds, Memory.read]
    · rw [setFlagsLoop, Function.update_of_ne (by simp [shown] at outside; omega)]
  | cons l rest ih =>
    rw [setFlagsLoop, shown_cons]
    by_cases set : flags &&& l.val ≠ 0
    · rw [if_pos set, if_pos set]
      obtain ⟨held, apart⟩ := ih (Function.update m p l.char) (p + 1)
      refine ⟨?_, fun i outside => ?_⟩
      · rw [List.cons_append, Memory.holds_cons, apart p (by omega), Function.update_self]
        exact ⟨rfl, held⟩
      · rw [List.length_cons] at outside
        rw [apart i (by omega), Function.update_of_ne (by omega)]
    · rw [if_neg set, if_neg set]
      obtain ⟨held, apart⟩ := ih (Function.update m p l.char) p
      refine ⟨held, fun i outside => ?_⟩
      rw [apart i outside, Function.update_of_ne (by omega)]

/-- The text of the column, and that only the bytes of this text and its terminator change. -/
theorem setFlags_text (letters : List FlagLetter) (m : Memory) (flagstr flags : ℕ) :
    (setFlags letters m flagstr flags).Holds flagstr (0x55 :: shown letters flags ++ [0]) ∧
      ∀ i, i < flagstr ∨ flagstr + (shown letters flags).length + 1 < i →
        setFlags letters m flagstr flags i = m i := by
  obtain ⟨held, apart⟩ := setFlagsLoop_spec flags letters (Function.update m flagstr 0x55)
    (flagstr + 1)
  refine ⟨?_, fun i outside => ?_⟩
  · rw [List.cons_append, Memory.holds_cons, setFlags, apart flagstr (by omega),
      Function.update_self]
    exact ⟨rfl, held⟩
  · rw [setFlags, apart i (by omega), Function.update_of_ne (by omega)]

/-- Within a mask, every letter stands for one flag. -/
def Legible (letters : List FlagLetter) (mask : ℕ) : Prop :=
  ∀ i < 32, mask.testBit i → ∃ l ∈ letters, l.val = 2 ^ i ∧
    ∀ l' ∈ letters, l'.char = l.char → l'.val &&& mask ≠ 0 → l'.val = 2 ^ i

instance (letters : List FlagLetter) (mask : ℕ) : Decidable (Legible letters mask) :=
  inferInstanceAs (Decidable (∀ i < 32, _))

theorem and_two_pow_ne_zero {n i : ℕ} : n &&& 2 ^ i ≠ 0 ↔ n.testBit i = true := by
  rw [Nat.and_two_pow]
  cases n.testBit i <;> simp

/-- A letter is shown exactly if its flag is set. -/
theorem testBit_iff_mem_shown {mask i : ℕ} {l : FlagLetter} (mem : l ∈ letters)
    (val : l.val = 2 ^ i)
    (alone : ∀ l' ∈ letters, l'.char = l.char → l'.val &&& mask ≠ 0 → l'.val = 2 ^ i) :
    (flags &&& mask).testBit i = true ↔ l.char ∈ shown letters (flags &&& mask) := by
  rw [← and_two_pow_ne_zero, shown, List.mem_map]
  constructor
  · intro set
    exact ⟨l, List.mem_filter.mpr ⟨mem, by simpa [val] using set⟩, rfl⟩
  · rintro ⟨l', mem', same⟩
    obtain ⟨mem', set⟩ := List.mem_filter.mp mem'
    have set : flags &&& mask &&& l'.val ≠ 0 := by simpa using set
    -- The flag of this letter lies in the mask, so it is the flag of `l`.
    have inside : l'.val &&& mask ≠ 0 := by
      intro outside
      apply set
      rw [Nat.and_assoc, Nat.and_comm mask, outside, Nat.and_zero]
    rwa [alone l' mem' same inside] at set

/-- A legible column shows which flags are set. -/
theorem shown_injective {mask flags' : ℕ} (legible : Legible letters mask) (word : mask < 2 ^ 32)
    (same : shown letters (flags &&& mask) = shown letters (flags' &&& mask)) :
    flags &&& mask = flags' &&& mask := by
  apply Nat.eq_of_testBit_eq
  intro i
  by_cases inside : mask.testBit i
  · have small : i < 32 := by
      by_contra large
      rw [Nat.testBit_lt_two_pow (word.trans_le (Nat.pow_le_pow_right (by decide) (by omega)))]
        at inside
      cases inside
    obtain ⟨l, mem, val, alone⟩ := legible i small inside
    rw [Bool.eq_iff_iff, testBit_iff_mem_shown mem val alone, testBit_iff_mem_shown mem val alone,
      same]
  · simp [Nat.testBit_and, inside]

/-- The letters are no terminators. -/
theorem zero_notMem_shown (flags : ℕ) : 0 ∉ shown flagLetters flags := by
  intro mem
  obtain ⟨l, mem, zero⟩ := List.mem_map.mp mem
  have letters : ∀ l ∈ flagLetters, l.char ≠ 0 := by decide
  exact letters l (List.mem_of_mem_filter mem) zero

/-- The two displays pass `set_flags` the flags of their mask only; whoever reads the column
knows which of them are set, though the letter `D` is used for two flags. -/
theorem flag_column_injective {mask flags flags' p p' : ℕ} {m m' : Memory} {column : List UInt8}
    (display : mask = ipv4Mask ∨ mask = ipv6Mask) (text : 0 ∉ column)
    (first : (setFlags flagLetters m p (flags &&& mask)).Holds p (column ++ [0]))
    (second : (setFlags flagLetters m' p' (flags' &&& mask)).Holds p' (column ++ [0])) :
    flags &&& mask = flags' &&& mask := by
  have column_eq (m : Memory) (p flags : ℕ)
      (held : (setFlags flagLetters m p flags).Holds p (column ++ [0])) :
      column = 0x55 :: shown flagLetters flags := by
    refine held.string_unique (setFlags_text flagLetters m p flags).1 text ?_
    simpa using zero_notMem_shown flags
  have same := (column_eq m p _ first).symm.trans (column_eq m' p' _ second)
  obtain rfl | rfl := display
  · exact shown_injective (by decide) (by decide) (List.cons.inj same).2
  · exact shown_injective (by decide) (by decide) (List.cons.inj same).2

theorem gateway_column_shows_gateway :
    (setFlags flagLetters (fun _ => 0) 0 (3 &&& ipv4Mask)).Holds 0 (ascii "UG" ++ [0]) ∧
      (setFlags flagLetters (fun _ => 1) 5 (2 &&& ipv4Mask)).Holds 5 (ascii "UG" ++ [0]) ∧
      3 &&& ipv4Mask = 2 &&& ipv4Mask :=
  have first := (setFlags_text flagLetters (fun _ => 0) 0 (3 &&& ipv4Mask)).1
  have second := (setFlags_text flagLetters (fun _ => 1) 5 (2 &&& ipv4Mask)).1
  ⟨first, second, flag_column_injective (.inl rfl) (by decide) first second⟩

end Flags

/-! ### The shift of two addresses -/

/-- The array `addr6x` and the two cursors into it. -/
structure Shift where
  addr6x : Memory
  i : ℕ
  p : ℕ

/-- A byte is copied, and a colon follows where a group ends. -/
def Shift.copy (s : Shift) : Shift :=
  let m := Function.update s.addr6x s.i (s.addr6x s.p)
  if (s.i + 1 + 1) % 5 = 0 then
    { addr6x := Function.update m (s.i + 1) 0x3A, i := s.i + 2, p := s.p + 1 }
  else { addr6x := m, i := s.i + 1, p := s.p + 1 }

/-- The test at the end of the loop. -/
def Shift.test (s : Shift) : Shift ⊕ Option Memory :=
  if s.i < 40 + 28 + 7 then .inl s else .inr (some s.addr6x)

/-- One round of the loop; `none` is the jump to `ERROR`. -/
def shiftRound (s : Shift) : Shift ⊕ Option Memory :=
  if s.addr6x s.p = 0 then
    if s.i = 40 then
      Shift.test { s with addr6x := Function.update s.addr6x 39 0, p := s.p + 1 }
    else .inr none
  else s.copy.test

/-- The digits in groups of four: what stands at place `k`. -/
def grouped (digits : List UInt8) (k : ℕ) : UInt8 :=
  if (k + 1) % 5 = 0 then 0x3A else digits.getD (k - k / 5) 0

section Shift

variable {x : List UInt8} {m : Memory} {s : Shift} {o q n : ℕ}

/-- `n` digits of the string `x` at `q` have been shifted to `o`. -/
structure Shifting (m : Memory) (x : List UInt8) (o q n : ℕ) (s : Shift) : Prop where
  i : s.i = o + (n + n / 4)
  p : s.p = q + n
  front : ∀ k < n + n / 4, s.addr6x (o + k) = grouped x k
  apart : ∀ k, k < o ∨ s.i ≤ k → s.addr6x k = m k

/-- The test for a colon succeeds after every fourth digit. -/
theorem colon_iff (n : ℕ) (aligned : o % 5 = 0) :
    (o + (n + n / 4) + 1 + 1) % 5 = 0 ↔ (n + 1) / 4 = n / 4 + 1 := by
  have rest : (o + (n + n / 4) + 1 + 1) % 5 = (n % 4 + 2) % 5 := by omega
  rw [rest]
  omega

/-- One digit more. The reading cursor stays ahead of the writing one. -/
theorem Shifting.copy (h : Shifting m x o q n s) (aligned : o % 5 = 0) (ahead : o + n / 4 ≤ q)
    (byte : m (q + n) = x.getD n 0) : Shifting m x o q (n + 1) s.copy := by
  have i := h.i
  have read : s.addr6x s.p = x.getD n 0 := by rw [h.p, h.apart _ (by omega), byte]
  -- The digit stands at place `n + n / 4` of the groups.
  have digit : grouped x (n + n / 4) = x.getD n 0 := by
    rw [grouped, if_neg (by omega), show n + n / 4 - (n + n / 4) / 5 = n by omega]
  unfold Shift.copy
  rw [i]
  split_ifs with colon <;> rw [colon_iff n aligned] at colon
  · refine ⟨by dsimp only; omega, by dsimp only; rw [h.p]; rfl, fun k inside => ?_,
      fun k outside => ?_⟩
    · dsimp only
      obtain last | before : k = n + n / 4 + 1 ∨ k ≤ n + n / 4 := by omega
      · rw [last, show o + (n + n / 4 + 1) = o + (n + n / 4) + 1 from rfl, Function.update_self,
          grouped, if_pos (by omega)]
      · rw [Function.update_of_ne (by omega)]
        obtain rfl | earlier := Nat.eq_or_lt_of_le before
        · rw [Function.update_self, read, digit]
        · rw [Function.update_of_ne (by omega), h.front k earlier]
    · dsimp only at outside ⊢
      rw [Function.update_of_ne (by omega), Function.update_of_ne (by omega),
        h.apart k (by omega)]
  · refine ⟨by dsimp only; omega, by dsimp only; rw [h.p]; rfl, fun k inside => ?_,
      fun k outside => ?_⟩
    · dsimp only
      have before : k ≤ n + n / 4 := by omega
      obtain rfl | earlier := Nat.eq_or_lt_of_le before
      · rw [Function.update_self, read, digit]
      · rw [Function.update_of_ne (by omega), h.front k earlier]
    · dsimp only at outside ⊢
      rw [Function.update_of_ne (by omega), h.apart k (by omega)]

/-- A round at a digit. -/
theorem Shifting.round (h : Shifting m x o q n s) (ahead : o + n / 4 ≤ q)
    (inside : n < x.length) (byte : m (q + n) = x.getD n 0) (digit : x[n] ≠ 0) :
    shiftRound s = s.copy.test := by
  have i := h.i
  rw [shiftRound, if_neg]
  rwa [h.p, h.apart _ (by omega), byte, List.getD_eq_getElem _ _ inside]

/-- Rounds that shift digits, as long as the test holds. -/
theorem Shifting.rounds (h : Shifting m x o q 0 s) (aligned : o % 5 = 0)
    (held : ∀ j < x.length, m (q + j) = x.getD j 0) (digits : ∀ c ∈ x, c ≠ 0) (n : ℕ)
    (inside : n ≤ x.length) (ahead : o + n / 4 ≤ q) (below : o + (n + n / 4) < 75) :
    ∃ s', Shifting m x o q n s' ∧
      ∀ r, Outcome shiftRound s' r → Outcome shiftRound s r := by
  induction n with
  | zero => exact ⟨s, h, fun _ outcome => outcome⟩
  | succ n ih =>
    obtain ⟨t, shifted, reached⟩ := ih (by omega) (by omega) (by omega)
    have next := shifted.copy aligned (by omega) (held n (by omega))
    refine ⟨t.copy, next, fun r outcome => reached r (Outcome.later ?_ outcome)⟩
    rw [shifted.round (by omega) (by omega) (held n (by omega)) (digits _ (List.getElem_mem _)),
      Shift.test,
      if_pos (by rw [next.i]; exact below)]

/-- A string that ends too early. -/
theorem Shifting.fails (h : Shifting m x o q n s) (ahead : o + n / 4 ≤ q) (ended : m (q + n) = 0)
    (early : o + (n + n / 4) ≠ 40) : Ends shiftRound s none := by
  have i := h.i
  apply Ends.now
  rw [shiftRound, if_pos, if_neg (by rwa [i])]
  rw [h.p, h.apart _ (by omega), ended]

/-- The array as `fscanf` leaves it: a string of at most 32 bytes at 14, and another at 47. -/
structure Scanned (a b : List UInt8) (m : Memory) : Prop where
  first : ∀ j ≤ a.length, m (14 + j) = a.getD j 0
  second : ∀ j ≤ b.length, m (47 + j) = b.getD j 0
  digits : ∀ c ∈ a ++ b, c ≠ 0
  short : a.length ≤ 32 ∧ b.length ≤ 32
  some_digit : b ≠ []

/-- The array at the end: both addresses in groups, each with a terminator. -/
structure Displayed (a b : List UInt8) (m : Memory) : Prop where
  first : ∀ k < 39, m k = grouped a k
  first_end : m 39 = 0
  second : ∀ k < b.length + 7, m (40 + k) = grouped b k
  second_end : m (47 + b.length) = 0

variable {a b : List UInt8}

/-- The second address, when the first one has 32 digits. -/
theorem shift_second {m₁ : Memory} (scanned : Scanned a b m) (front : ∀ k < 39, m₁ k = grouped a k)
    (ended : m₁ 39 = 0) (apart : ∀ k, 40 ≤ k → m₁ k = m k) :
    ∃ r, Ends shiftRound ⟨m₁, 40, 47⟩ r ∧ (r.isSome ↔ 28 ≤ b.length) ∧
      ∀ m' ∈ r, Displayed a b m' := by
  have start : Shifting m₁ b 40 47 0 ⟨m₁, 40, 47⟩ :=
    ⟨rfl, rfl, nofun, fun _ _ => rfl⟩
  have held : ∀ j ≤ b.length, m₁ (47 + j) = b.getD j 0 := fun j inside => by
    rw [apart _ (by omega), scanned.second j inside]
  have digits : ∀ c ∈ b, c ≠ 0 := fun c mem => scanned.digits c (List.mem_append_right a mem)
  have some_digit := List.length_pos_of_ne_nil scanned.some_digit
  obtain short | long := Nat.lt_or_ge b.length 28
  · obtain ⟨t, shifted, reached⟩ := start.rounds rfl (fun j inside => held j inside.le) digits
      b.length (Nat.le_refl _) (by omega) (by omega)
    refine ⟨none, ?_, by simp; omega, nofun⟩
    refine reached (some none) (shifted.fails (by omega) ?_ (by omega))
    rw [held _ (Nat.le_refl _), List.getD_eq_default _ _ (Nat.le_refl _)]
  · -- The copy of the 28th digit is the last one: the others are in their places.
    obtain ⟨t, shifted, reached⟩ := start.rounds rfl (fun j inside => held j inside.le) digits
      27 (by omega) (by omega) (by omega)
    have byte := held 27 (by omega)
    have last := shifted.copy rfl (by omega) byte
    refine ⟨some t.copy.addr6x, reached (some (some _)) (Ends.now ?_), by simpa using long, ?_⟩
    · rw [shifted.round (by omega) (by omega) byte (digits _ (List.getElem_mem _)), Shift.test,
        if_neg (by rw [last.i]; decide)]
    · rintro m' ⟨rfl⟩
      have i : t.copy.i = 75 := last.i
      refine ⟨fun k inside => ?_, ?_, fun k inside => ?_, ?_⟩
      · rw [last.apart k (by omega), front k inside]
      · rw [last.apart 39 (by omega), ended]
      · obtain shifted' | in_place := Nat.lt_or_ge k 35
        · exact last.front k shifted'
        · obtain ⟨j, rfl⟩ : ∃ j, k = 7 + j := ⟨k - 7, by omega⟩
          have short := scanned.short.2
          rw [last.apart _ (by omega), show 40 + (7 + j) = 47 + j by omega, held j (by omega),
            grouped, if_neg (by omega), show 7 + j - (7 + j) / 5 = j by omega]
      · rw [last.apart _ (by omega), held _ (Nat.le_refl _),
          List.getD_eq_default _ _ (Nat.le_refl _)]

/-- The loop always ends. It accepts a first address of 32 digits and a second one of at least
28, and leaves both in groups of four. -/
theorem shift_outcome (scanned : Scanned a b m) :
    ∃ r, Ends shiftRound ⟨m, 0, 14⟩ r ∧ (r.isSome ↔ a.length = 32 ∧ 28 ≤ b.length) ∧
      ∀ m' ∈ r, Displayed a b m' := by
  have start : Shifting m a 0 14 0 ⟨m, 0, 14⟩ := ⟨rfl, rfl, nofun, fun _ _ => rfl⟩
  have digits : ∀ c ∈ a, c ≠ 0 := fun c mem => scanned.digits c (List.mem_append_left b mem)
  have short := scanned.short.1
  obtain ⟨t, shifted, reached⟩ := start.rounds rfl
    (fun j inside => scanned.first j inside.le) digits a.length (Nat.le_refl _) (by omega)
    (by omega)
  have ended : m (14 + a.length) = 0 := by
    rw [scanned.first _ (Nat.le_refl _), List.getD_eq_default _ _ (Nat.le_refl _)]
  by_cases full : a.length = 32
  · rw [full] at shifted ended
    have i : t.i = 40 := shifted.i
    have p : t.p = 46 := shifted.p
    obtain ⟨r, ends, accepted, displayed⟩ := @shift_second m a b
      (Function.update t.addr6x 39 0) scanned
      (fun k inside => by
        rw [Function.update_of_ne (by omega)]
        simpa using shifted.front k (by omega))
      (Function.update_self _ _ _)
      (fun k outside => by rw [Function.update_of_ne (by omega), shifted.apart k (by omega)])
    refine ⟨r, reached (some r) (Ends.later ?_ ends), by simpa [full] using accepted, displayed⟩
    rw [shiftRound, if_pos, if_pos i, Shift.test, if_pos (by rw [i]; decide), i, p]
    rw [p, shifted.apart 46 (by omega), ← ended]
  · refine ⟨none, reached (some none) (shifted.fails (by omega) ended (by omega)), ?_, nofun⟩
    simp [full]

/-- Two addresses, as they stand in `/proc/net/ipv6_route`. -/
def scannedArray : Memory := fun k =>
  if 14 ≤ k ∧ k < 46 then 0x66 else if 47 ≤ k ∧ k < 79 then 0x30 else 0

theorem scannedArray_spec :
    Scanned (List.replicate 32 0x66) (List.replicate 32 0x30) scannedArray where
  first := by decide
  second := by decide
  digits := by
    intro c listed
    simp only [List.mem_append, List.mem_replicate] at listed
    obtain ⟨-, rfl⟩ | ⟨-, rfl⟩ := listed <;> decide
  short := by simp only [List.length_replicate, Nat.le_refl, and_self]
  some_digit := by decide

theorem shift_outcome_of_scanned :
    ∃ r, Ends shiftRound ⟨scannedArray, 0, 14⟩ r ∧
      (r.isSome ↔ (List.replicate 32 (0x66 : UInt8)).length = 32 ∧
        28 ≤ (List.replicate 32 (0x30 : UInt8)).length) ∧
      ∀ m' ∈ r, Displayed (List.replicate 32 0x66) (List.replicate 32 0x30) m' :=
  shift_outcome scannedArray_spec

end Shift

end LinuxProgram.Route
