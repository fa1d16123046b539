import LinuxProgram.Base.Text
import Mathlib.Tactic.Common

/-!
# Decoding the body of a request

`urldecode` of `http.py` replaces what a regular expression finds by what `htc` makes of it. The
expression takes the letters `g` and `h` for hexadecimal digits, but `int` does not: a body with
`%gg` in it raises an exception.

Where that does not occur, the escapes are replaced from left to right in one pass; what has been
put in is not looked at again.

## Main definitions

* `urldecode` — the code
* `decode` — every escape replaced
* `Malformed` — two characters that the expression accepts and `int` does not
* `Encodes` — the encodings of a text

## Main result

* `urldecode_eq_iff` — the bodies that are decoded
-/

namespace LinuxProgram.ContainerSsl

open Base

/-! ### The code -/

/-- What Python raises. -/
inductive Raised
  | valueError
  deriving DecidableEq

/-- `[0-9a-hA-H]` -/
def inClass (c : UInt8) : Bool :=
  (48 ≤ c && c ≤ 57) || (97 ≤ c && c ≤ 104) || (65 ≤ c && c ≤ 72)

/-- The value of a digit or a letter in a numeral. -/
def digitValue (c : UInt8) : Option ℕ :=
  if 48 ≤ c ∧ c ≤ 57 then some (c.toNat - 48)
  else if 97 ≤ c ∧ c ≤ 122 then some (c.toNat - 97 + 10)
  else if 65 ≤ c ∧ c ≤ 90 then some (c.toNat - 65 + 10)
  else none

/-- A digit of a numeral to the given base. -/
def digit (base : ℕ) (c : UInt8) : Except Raised ℕ :=
  match digitValue c with
  | some d => if d < base then .ok d else .error .valueError
  | none => .error .valueError

/-- `int(group, 16)` on two digits or letters. -/
def int16 (x y : UInt8) : Except Raised ℕ := do
  let a ← digit 16 x
  let b ← digit 16 y
  return 16 * a + b

/-- `chr` of Python 2. -/
def chr (n : ℕ) : Except Raised UInt8 :=
  if n < 256 then .ok (UInt8.ofNat n) else .error .valueError

/-- `htc`, on the two characters of the group. -/
def htc (x y : UInt8) : Except Raised UInt8 := int16 x y >>= chr

/-- `urldecode`: `sub` with `%([0-9a-hA-H][0-9a-hA-H])`. Fewer than three characters hold no
match. -/
def urldecode : List UInt8 → Except Raised (List UInt8)
  | c :: x :: y :: rest =>
    if c = 37 ∧ inClass x = true ∧ inClass y = true then do
      -- A match: the search goes on behind it.
      let d ← htc x y
      (urldecode rest).map (d :: ·)
    else (urldecode (x :: y :: rest)).map (c :: ·)
  | few => .ok few

/-! ### What it is for -/

/-- The value of a hexadecimal digit. -/
def hexValue (c : UInt8) : Option ℕ :=
  if 48 ≤ c ∧ c ≤ 57 then some (c.toNat - 48)
  else if 97 ≤ c ∧ c ≤ 102 then some (c.toNat - 87)
  else if 65 ≤ c ∧ c ≤ 70 then some (c.toNat - 55)
  else none

/-- The character with the code that two hexadecimal digits give. -/
def escaped (x y : UInt8) : Option UInt8 :=
  match hexValue x, hexValue y with
  | some a, some b => some (UInt8.ofNat (16 * a + b))
  | _, _ => none

/-- Every percent sign before two hexadecimal digits, with the digits, is replaced, from left to
right. -/
def decode : List UInt8 → List UInt8
  | c :: x :: y :: rest =>
    if c = 37 then
      match escaped x y with
      | some d => d :: decode rest
      | none => c :: decode (x :: y :: rest)
    else c :: decode (x :: y :: rest)
  | few => few

/-- Somewhere the expression accepts what are not two hexadecimal digits. -/
def Malformed (url : List UInt8) : Prop :=
  ∃ before x y after, url = before ++ 37 :: x :: y :: after ∧
    inClass x = true ∧ inClass y = true ∧ escaped x y = none

/-- An encoding of a text: percent signs are escaped, and other characters may be. -/
inductive Encodes : List UInt8 → List UInt8 → Prop
  | nil : Encodes [] []
  | plain {c : UInt8} {s e : List UInt8} : c ≠ 37 → Encodes s e → Encodes (c :: s) (c :: e)
  | escape {c x y : UInt8} {s e : List UInt8} : escaped x y = some c → Encodes s e →
    Encodes (c :: s) (37 :: x :: y :: e)

/-! ### Digits -/

section Digits

variable {c x y : UInt8}

theorem inClass_of_hexValue {a : ℕ} (value : hexValue c = some a) : inClass c = true := by
  unfold hexValue at value
  simp only [inClass, UInt8.le_iff_toNat_le, UInt8.reduceToNat, Bool.or_eq_true, Bool.and_eq_true,
    decide_eq_true_eq] at value ⊢
  split_ifs at value <;> omega

/-- The hexadecimal digits are those below sixteen. -/
theorem hexValue_eq_some {a : ℕ} : hexValue c = some a ↔ digitValue c = some a ∧ a < 16 := by
  unfold digitValue hexValue
  simp only [UInt8.le_iff_toNat_le, UInt8.reduceToNat]
  split_ifs <;> simp only [Option.some.injEq, false_and, false_iff] <;> omega

/-- `int` knows the hexadecimal digits and no others. -/
theorem digit_eq (c : UInt8) : digit 16 c =
    match hexValue c with
    | some a => .ok a
    | none => .error .valueError := by
  -- `g` to `z` are digits as well, but their values are too large.
  cases value : hexValue c with
  | some a =>
    obtain ⟨known, small⟩ := hexValue_eq_some.mp value
    rw [digit, known]
    exact if_pos small
  | none =>
    cases known : digitValue c with
    | none => rw [digit, known]
    | some d =>
      have large : ¬ d < 16 := fun small => by
        rw [hexValue_eq_some.mpr ⟨known, small⟩] at value
        cases value
      rw [digit, known]
      exact if_neg large

theorem htc_eq (x y : UInt8) : htc x y =
    match escaped x y with
    | some c => .ok c
    | none => .error .valueError := by
  rw [htc, int16, digit_eq, digit_eq, escaped]
  cases first : hexValue x with
  | none => rfl
  | some a =>
    cases second : hexValue y with
    | none => rfl
    | some b =>
      have high := (hexValue_eq_some.mp first).2
      have low := (hexValue_eq_some.mp second).2
      exact if_pos (by omega)

/-- The expression accepts the hexadecimal digits. -/
theorem inClass_of_escaped (value : escaped x y = some c) :
    inClass x = true ∧ inClass y = true := by
  unfold escaped at value
  cases first : hexValue x with
  | none =>
    rw [first] at value
    cases value
  | some a =>
    cases second : hexValue y with
    | none =>
      rw [first, second] at value
      cases value
    | some b => exact ⟨inClass_of_hexValue first, inClass_of_hexValue second⟩

theorem inClass_ne_percent (accepted : inClass c = true) : c ≠ 37 := by
  rintro rfl
  cases accepted

end Digits

/-! ### One character or one escape at a time -/

section Steps

variable {c x y : UInt8} {url s rest : List UInt8}

/-- An accepted escape. -/
theorem urldecode_match (first : inClass x = true) (second : inClass y = true) :
    urldecode (37 :: x :: y :: rest) = htc x y >>= fun d => (urldecode rest).map (d :: ·) := by
  rw [urldecode, if_pos ⟨rfl, first, second⟩]

/-- Another character. -/
theorem urldecode_plain (plain : c ≠ 37) :
    urldecode (c :: s) = (urldecode s).map (c :: ·) := by
  match s with
  | [] => rfl
  | [x] => rfl
  | x :: y :: rest => rw [urldecode, if_neg fun accepted => plain accepted.1]

theorem decode_escape {d : UInt8} (value : escaped x y = some d) :
    decode (37 :: x :: y :: rest) = d :: decode rest := by
  rw [decode, if_pos rfl, value]

/-- The first place that can be malformed is the beginning. -/
theorem malformed_cons : Malformed (c :: s) ↔
    (∃ x y after, c = 37 ∧ s = x :: y :: after ∧ inClass x = true ∧ inClass y = true ∧
      escaped x y = none) ∨ Malformed s := by
  constructor
  · rintro ⟨before, x, y, after, same, bad⟩
    cases before with
    | nil =>
      obtain ⟨rfl, rfl⟩ := List.cons.inj same
      exact .inl ⟨x, y, after, rfl, rfl, bad⟩
    | cons b before =>
      obtain ⟨-, rfl⟩ := List.cons.inj same
      exact .inr ⟨before, x, y, after, rfl, bad⟩
  · rintro (⟨x, y, after, rfl, rfl, bad⟩ | ⟨before, x, y, after, rfl, bad⟩)
    · exact ⟨[], x, y, after, rfl, bad⟩
    · exact ⟨c :: before, x, y, after, rfl, bad⟩

theorem malformed_plain (plain : c ≠ 37) : Malformed (c :: s) ↔ Malformed s := by
  rw [malformed_cons, or_iff_right]
  rintro ⟨x, y, after, percent, -⟩
  exact plain percent

/-- A percent sign is no digit, so that places which are accepted do not overlap. -/
theorem malformed_match (first : inClass x = true) (second : inClass y = true) :
    Malformed (37 :: x :: y :: rest) ↔ escaped x y = none ∨ Malformed rest := by
  rw [malformed_cons, malformed_plain (inClass_ne_percent first),
    malformed_plain (inClass_ne_percent second)]
  refine or_congr_left ?_
  constructor
  · rintro ⟨x', y', after, -, same, -, -, bad⟩
    obtain ⟨rfl, rest⟩ := List.cons.inj same
    obtain ⟨rfl, -⟩ := List.cons.inj rest
    exact bad
  · exact fun bad => ⟨x, y, rest, rfl, rfl, first, second, bad⟩

theorem map_cons_eq_ok {ε : Type} {result : Except ε (List UInt8)} :
    result.map (c :: ·) = .ok (c :: s) ↔ result = .ok s := by
  cases result with
  | error e => simp [Except.map]
  | ok t => simp [Except.map]

end Steps

/-! ### Whole bodies -/

theorem urldecode_eq_decode_iff (url : List UInt8) :
    urldecode url = .ok (decode url) ↔ ¬ Malformed url := by
  fun_induction urldecode url with
  | case1 c x y rest accepted ih =>
    obtain ⟨rfl, first, second⟩ := accepted
    rw [malformed_match first second, htc_eq]
    -- `htc` raises unless both are hexadecimal digits.
    cases value : escaped x y with
    | none => exact iff_of_false (by rintro ⟨⟩) (by simp)
    | some d =>
      have accepts : ¬ (some d = none ∨ Malformed rest) ↔ ¬ Malformed rest := by simp
      rw [decode_escape value, accepts]
      exact map_cons_eq_ok.trans ih
  | case2 c x y rest other ih =>
    -- What the expression does not accept are not two hexadecimal digits either.
    have kept : decode (c :: x :: y :: rest) = c :: decode (x :: y :: rest) := by
      rw [decode]
      split_ifs with percent
      · cases value : escaped x y with
        | none => rfl
        | some d => exact absurd ⟨percent, inClass_of_escaped value⟩ other
      · rfl
    have same : Malformed (c :: x :: y :: rest) ↔ Malformed (x :: y :: rest) := by
      rw [malformed_cons, or_iff_right]
      rintro ⟨x', y', after, percent, here, first, second, -⟩
      cases here
      exact other ⟨percent, first, second⟩
    rw [kept, same, map_cons_eq_ok]
    exact ih
  | case3 few short =>
    have unchanged : decode few = few ∧ few.length ≤ 2 := by
      match few with
      | [] => exact ⟨rfl, by simp⟩
      | [c] => exact ⟨rfl, by simp⟩
      | [c, x] => exact ⟨rfl, by simp⟩
      | c :: x :: y :: rest => exact absurd rfl (short c x y rest)
    rw [unchanged.1]
    refine iff_of_true rfl ?_
    rintro ⟨before, x, y, after, rfl, -⟩
    have size := unchanged.2
    simp only [List.length_append, List.length_cons] at size
    omega

/-- A body is decoded exactly if it has no place that the expression accepts and `int` does not.
Every encoding of a text is decoded to the text. -/
theorem urldecode_eq_iff (url : List UInt8) :
    (urldecode url = .ok (decode url) ↔ ¬ Malformed url) ∧
      ∀ s, Encodes s url → urldecode url = .ok s := by
  refine ⟨urldecode_eq_decode_iff url, fun s encodes => ?_⟩
  induction encodes with
  | nil => rfl
  | plain other _ ih => rw [urldecode_plain other, ih]; rfl
  | escape value _ ih =>
    obtain ⟨first, second⟩ := inClass_of_escaped value
    rw [urldecode_match first second, htc_eq, value, ih]
    rfl

/-- What has been put in is not decoded again: `%2541` becomes `%41`. -/
example : urldecode (ascii "%2541") = .ok (ascii "%41") := by decide

/-- The expression accepts `%gg`, and `int` raises. -/
theorem urldecode_raises : urldecode (ascii "a%gg") = .error .valueError ∧
    decode (ascii "a%gg") = ascii "a%gg" := by
  decide

end LinuxProgram.ContainerSsl
