import LinuxProgram.JsonC.Grammar
import LinuxProgram.JsonC.Levels

/-!
# Unicode escapes

The loop for `\u` escapes reads code units of four digits. A high surrogate is kept until
the next escape is read; it looks two characters ahead to see whether there is one.

The tokener works on words of 32 bits. They are compared with the numbers of the grammar first.

## Main results

* `unescapedUtf_eq` — the bytes that are appended are those of the code point
* `Units.loop`, `unicodeLoop_units` — the loop does what the grammar says, and only that
-/

namespace LinuxProgram.JsonC

open Base

variable {δ : Type} {tok : Tokener δ} {obj : Json δ} {hi : UInt32} {a b c d : UInt8}
  {rest : List UInt8}

/-! ### Digits and code points -/

/-- Four hexadecimal digits. -/
def HexDigits (a b c d : UInt8) : Prop :=
  a ∈ jsonHexChars ∧ b ∈ jsonHexChars ∧ c ∈ jsonHexChars ∧ d ∈ jsonHexChars

/-- The word that four digits are gathered to. -/
def codeWord (a b c d : UInt8) : UInt32 :=
  (hexdigit a <<< 12) + (hexdigit b <<< 8) + (hexdigit c <<< 4) + hexdigit d

theorem hexValue_spec (c : UInt8) :
    (∀ n ∈ hexValue c, c ∈ jsonHexChars ∧ (hexdigit c).toNat = n ∧ n < 16) ∧
      (hexValue c = none → c ∉ jsonHexChars) := by
  revert c
  apply forall_byte
  decide +kernel

theorem hexValue_of_mem {c : UInt8} (hex : c ∈ jsonHexChars) :
    hexValue c = some (hexdigit c).toNat ∧ (hexdigit c).toNat < 16 := by
  cases value : hexValue c with
  | none => exact absurd hex ((hexValue_spec c).2 value)
  | some n =>
    obtain ⟨-, same, small⟩ := (hexValue_spec c).1 n value
    rw [same]
    exact ⟨rfl, small⟩

theorem HexDigits.toNat (hex : HexDigits a b c d) :
    codeUnit a b c d = some (codeWord a b c d).toNat ∧ (codeWord a b c d).toNat < 0x10000 := by
  obtain ⟨ha, hb, hc, hd⟩ := hex
  obtain ⟨va, sa⟩ := hexValue_of_mem ha
  obtain ⟨vb, sb⟩ := hexValue_of_mem hb
  obtain ⟨vc, sc⟩ := hexValue_of_mem hc
  obtain ⟨vd, sd⟩ := hexValue_of_mem hd
  have sum : (codeWord a b c d).toNat =
      (((hexdigit a).toNat * 16 + (hexdigit b).toNat) * 16 + (hexdigit c).toNat) * 16 +
        (hexdigit d).toNat := by
    simp only [codeWord, UInt32.toNat_add, UInt32.toNat_shiftLeft, UInt32.reduceToNat,
      Nat.reduceMod, Nat.shiftLeft_eq]
    omega
  rw [codeUnit, va, vb, vc, vd, sum]
  exact ⟨rfl, by omega⟩

theorem hexDigits_of_codeUnit {u : ℕ} (unit : codeUnit a b c d = some u) : HexDigits a b c d := by
  simp only [codeUnit, Option.bind_eq_bind, Option.bind_eq_some_iff] at unit
  obtain ⟨na, va, nb, vb, nc, vc, nd, vd, -⟩ := unit
  exact ⟨((hexValue_spec a).1 na va).1, ((hexValue_spec b).1 nb vb).1,
    ((hexValue_spec c).1 nc vc).1, ((hexValue_spec d).1 nd vd).1⟩

theorem toNat_mask (uc : UInt32) : (uc &&& 0xFC00).toNat = uc.toNat / 0x400 % 0x40 * 0x400 := by
  have shifted (n : ℕ) : n &&& (2 ^ 6 - 1) <<< 10 = (n >>> 10 &&& 2 ^ 6 - 1) <<< 10 := by
    apply Nat.eq_of_testBit_eq
    intro i
    simp only [Nat.testBit_and, Nat.testBit_shiftLeft, Nat.testBit_shiftRight]
    by_cases inside : 10 ≤ i
    · rw [Nat.add_sub_cancel' inside, decide_eq_true inside, Bool.true_and, Bool.true_and]
    · rw [decide_eq_false inside, Bool.false_and, Bool.false_and, Bool.and_false]
  rw [UInt32.toNat_and]
  refine (shifted uc.toNat).trans ?_
  rw [Nat.and_two_pow_sub_one_eq_mod, Nat.shiftLeft_eq, Nat.shiftRight_eq_div_pow]

theorem isHighSurrogate_iff (uc : UInt32) : isHighSurrogate uc ↔ HighSurrogate uc.toNat := by
  have mark : (0xD800 : UInt32).toNat = 0xD800 := rfl
  rw [isHighSurrogate, decide_eq_true_iff, ← UInt32.toNat_inj, toNat_mask, HighSurrogate]
  omega

theorem isLowSurrogate_iff (uc : UInt32) : isLowSurrogate uc ↔ LowSurrogate uc.toNat := by
  have mark : (0xDC00 : UInt32).toNat = 0xDC00 := rfl
  rw [isLowSurrogate, decide_eq_true_iff, ← UInt32.toNat_inj, toNat_mask, LowSurrogate]
  omega

theorem decodeSurrogatePair_toNat (hi lo : UInt32) :
    (decodeSurrogatePair hi lo).toNat = surrogatePair hi.toNat lo.toNat := by
  have low (uc : UInt32) : (uc &&& 0x3FF).toNat = uc.toNat % 0x400 :=
    (UInt32.toNat_and ..).trans (Nat.and_two_pow_sub_one_eq_mod _ 10)
  simp only [decodeSurrogatePair, surrogatePair, UInt32.toNat_add, UInt32.toNat_shiftLeft, low,
    UInt32.reduceToNat, Nat.reduceMod, Nat.shiftLeft_eq]
  omega

/-- Some bits behind a mark. -/
theorem toUInt8_marked {w mark : UInt32} (bits : ℕ) (small : w.toNat < 2 ^ bits)
    (clear : 2 ^ bits ∣ mark.toNat) :
    (w ||| mark).toUInt8 = UInt8.ofNat (w.toNat + mark.toNat) := by
  obtain ⟨k, is_mark⟩ := clear
  rw [← UInt8.toNat_inj, UInt32.toNat_toUInt8, UInt32.toNat_or, UInt8.toNat_ofNat', is_mark,
    Nat.or_comm, ← Nat.two_pow_add_eq_or_of_lt small, Nat.add_comm]

/-- The bytes behind the first one. -/
theorem toUInt8_continued (w : UInt32) :
    ((w &&& 0x3F) ||| 0x80).toUInt8 = UInt8.ofNat (w.toNat % 64 + 128) := by
  have low : (w &&& 0x3F).toNat = w.toNat % 64 :=
    (UInt32.toNat_and ..).trans (Nat.and_two_pow_sub_one_eq_mod _ 6)
  rw [toUInt8_marked 6 (by omega) (by decide), low]
  rfl

theorem toNat_shifted (uc : UInt32) :
    (uc >>> 6).toNat = uc.toNat / 64 ∧ (uc >>> 12).toNat = uc.toNat / 4096 ∧
      (uc >>> 18).toNat = uc.toNat / 262144 := by
  rw [UInt32.toNat_shiftRight, UInt32.toNat_shiftRight, UInt32.toNat_shiftRight]
  exact ⟨Nat.shiftRight_eq_div_pow _ 6, Nat.shiftRight_eq_div_pow _ 12,
    Nat.shiftRight_eq_div_pow _ 18⟩

/-- The bytes of a code point. -/
theorem unescapedUtf_eq {uc : UInt32} (small : uc.toNat < 0x110000)
    (no_high : ¬ HighSurrogate uc.toNat) : unescapedUtf uc = utf8 uc.toNat := by
  obtain ⟨six, twelve, eighteen⟩ := toNat_shifted uc
  simp only [unescapedUtf, utf8, UInt32.lt_iff_toNat_lt, isLowSurrogate_iff, UInt32.reduceToNat,
    if_pos small]
  by_cases low : LowSurrogate uc.toNat
  · have large : 0x800 ≤ uc.toNat := by
      rw [LowSurrogate] at low
      omega
    rw [if_neg (by omega), if_neg (by omega), if_pos low, if_pos low]
    rfl
  · have valid : uc.toNat.isValidChar := by
      rw [LowSurrogate] at low
      rw [HighSurrogate] at no_high
      rw [Nat.isValidChar]
      omega
    have code : (Char.ofNat uc.toNat).val.toNat = uc.toNat := by
      rw [Char.ofNat, dif_pos valid]
      rfl
    rw [if_neg low, if_neg low]
    simp only [String.utf8EncodeChar, code, toUInt8_continued, six, twelve]
    -- One byte, two, three and four.
    rcases Nat.lt_or_ge uc.toNat 0x80 with one | two
    · rw [if_pos one, if_pos (Nat.le_of_lt_succ one), ← UInt32.toUInt8_ofNat', UInt32.ofNat_toNat]
    rw [if_neg (Nat.not_lt.mpr two), if_neg (Nat.not_le.mpr two)]
    rcases Nat.lt_or_ge uc.toNat 0x800 with two | three
    · rw [if_pos two, if_pos (Nat.le_of_lt_succ two), toUInt8_marked 5 (by omega) (by decide), six,
        Nat.mod_eq_of_lt (by omega : uc.toNat / 64 < 32)]
      rfl
    rw [if_neg (Nat.not_lt.mpr three), if_neg (Nat.not_le.mpr three)]
    rcases Nat.lt_or_ge uc.toNat 0x10000 with three | four
    · rw [if_pos three, if_pos (Nat.le_of_lt_succ three), toUInt8_marked 4 (by omega) (by decide),
        twelve, Nat.mod_eq_of_lt (by omega : uc.toNat / 4096 < 16)]
      rfl
    · have first : (uc >>> 18 &&& 7).toNat = uc.toNat / 262144 % 8 := by
        rw [UInt32.toNat_and, eighteen]
        exact Nat.and_two_pow_sub_one_eq_mod _ 3
      rw [if_neg (Nat.not_lt.mpr four), if_neg (Nat.not_le.mpr four),
        toUInt8_marked 3 (by omega) (by decide), first]
      rfl

/-- A high surrogate that waits for its other half. -/
def pending (hi : UInt32) : Option ℕ := if hi = 0 then none else some hi.toNat

/-- A code unit behind a high surrogate: the code point, and what is written before it. -/
def combined (hi unit : UInt32) : UInt32 × List UInt8 :=
  if hi = 0 then (unit, [])
  else if isLowSurrogate unit then (decodeSurrogatePair hi unit, [])
  else (unit, utf8ReplacementChar)

theorem joined_pending (hi unit : UInt32) :
    joined (pending hi) unit.toNat = ((combined hi unit).1.toNat, (combined hi unit).2) := by
  unfold pending combined
  split_ifs with none_yet low
  · rfl
  · rw [joined, if_pos ((isLowSurrogate_iff unit).mp low), decodeSurrogatePair_toNat]
  · rw [joined, if_neg (mt (isLowSurrogate_iff unit).mpr low)]
    rfl

/-- A code unit of the grammar, as the tokener combines it. -/
theorem joined_of_codeUnit {u : ℕ} (unit : codeUnit a b c d = some u) (hi : UInt32) :
    HexDigits a b c d ∧ (codeWord a b c d).toNat < 0x10000 ∧
      joined (pending hi) u =
        ((combined hi (codeWord a b c d)).1.toNat, (combined hi (codeWord a b c d)).2) := by
  have hex := hexDigits_of_codeUnit unit
  obtain ⟨word, small⟩ := hex.toNat
  obtain rfl := Option.some.inj (word.symm.trans unit)
  exact ⟨hex, small, joined_pending hi _⟩

theorem pending_of_high {uc : UInt32} (high : HighSurrogate uc.toNat) :
    pending uc = some uc.toNat := by
  refine if_neg ?_
  rintro rfl
  exact absurd high (by decide)

theorem combined_lt {unit : UInt32} (small : unit.toNat < 0x10000) (hi : UInt32) :
    (combined hi unit).1.toNat < 0x110000 := by
  unfold combined
  split_ifs
  · dsimp only; omega
  · rw [decodeSurrogatePair_toNat, surrogatePair]
    omega
  · dsimp only; omega

/-! ### The loop -/

/-- What no round changes unless it pushes or pops a level or ends the call. -/
structure Frame (tok tok' : Tokener δ) : Prop where
  below : tok'.below = tok.below
  maxDepth : tok'.maxDepth = tok.maxDepth
  strict : tok'.strict = tok.strict
  err : tok'.err = tok.err

theorem Frame.refl (tok : Tokener δ) : Frame tok tok := ⟨rfl, rfl, rfl, rfl⟩

theorem Frame.trans {tok tok' tok'' : Tokener δ} (first : Frame tok tok')
    (second : Frame tok' tok'') : Frame tok tok'' where
  below := second.below.trans first.below
  maxDepth := second.maxDepth.trans first.maxDepth
  strict := second.strict.trans first.strict
  err := second.err.trans first.err

/-- An escape has appended its bytes, and the string goes on. -/
structure Unescaped (tok tok' : Tokener δ) (bytes : List UInt8) : Prop extends Frame tok tok' where
  top : tok'.top = { tok.top with state := tok.top.savedState }
  pb : tok'.pb = tok.pb ++ bytes
  quoteChar : tok'.quoteChar = tok.quoteChar

theorem hex_ne_zero {c : UInt8} (hex : c ∈ jsonHexChars) : c ≠ 0 := by
  rintro rfl
  exact absurd hex (by decide)

theorem isHexChar_of_mem {c : UInt8} (hex : c ∈ jsonHexChars) : isHexChar c := by
  rw [isHexChar, decide_eq_true hex, Bool.true_or]

/-- The tokener behind four digits. -/
def Tokener.unit (tok : Tokener δ) (hi unit : UInt32) : Tokener δ :=
  ({ tok with ucsChar := unit, stPos := 4 } : Tokener δ).combine hi

/-- The second half of a pair is expected. -/
def Tokener.half (tok : Tokener δ) : Tokener δ := { tok with ucsChar := 0, stPos := 0 }

/-- An escape is finished. -/
def Tokener.unescape (tok : Tokener δ) (bytes : List UInt8) : Tokener δ :=
  (tok.append bytes).enter tok.top.savedState

theorem Tokener.unit_ucsChar (tok : Tokener δ) (hi unit : UInt32) :
    (tok.unit hi unit).ucsChar = (combined hi unit).1 := by
  unfold Tokener.unit Tokener.combine combined
  dsimp only
  split_ifs <;> rfl

theorem Tokener.unit_pb (tok : Tokener δ) (hi unit : UInt32) :
    (tok.unit hi unit).pb = tok.pb ++ (combined hi unit).2 := by
  unfold Tokener.unit Tokener.combine combined
  dsimp only
  split_ifs
  · exact (List.append_nil _).symm
  · exact (List.append_nil _).symm
  · rfl

theorem Tokener.unit_top (tok : Tokener δ) (hi unit : UInt32) :
    (tok.unit hi unit).top = tok.top := by
  rw [Tokener.unit, Tokener.top_combine]

theorem Tokener.unit_quoteChar (tok : Tokener δ) (hi unit : UInt32) :
    (tok.unit hi unit).quoteChar = tok.quoteChar := by
  unfold Tokener.unit Tokener.combine
  dsimp only
  split_ifs <;> rfl

theorem Tokener.unit_frame (tok : Tokener δ) (hi unit : UInt32) : Frame tok (tok.unit hi unit) := by
  unfold Tokener.unit Tokener.combine
  dsimp only
  split_ifs <;> exact ⟨rfl, rfl, rfl, rfl⟩

theorem Tokener.half_frame (tok : Tokener δ) : Frame tok tok.half := ⟨rfl, rfl, rfl, rfl⟩

theorem Tokener.unit_unescape (tok : Tokener δ) (hi unit : UInt32) (bytes : List UInt8) :
    Unescaped tok ((tok.unit hi unit).unescape bytes) ((combined hi unit).2 ++ bytes) where
  toFrame := (tok.unit_frame hi unit).trans ⟨rfl, rfl, rfl, rfl⟩
  top := by rw [Tokener.unescape, Tokener.enter, Tokener.top_append, Tokener.unit_top]
  pb := by
    rw [← List.append_assoc, ← Tokener.unit_pb]
    rfl
  quoteChar := tok.unit_quoteChar hi unit

/-- What is appended for the second half of a pair stands behind what is appended for the
first. -/
theorem Unescaped.of_half {tok' : Tokener δ} {unit : UInt32} {bytes : List UInt8}
    (unescaped : Unescaped (tok.unit hi unit).half tok' bytes) :
    Unescaped tok tok' ((combined hi unit).2 ++ bytes) where
  toFrame := (tok.unit_frame hi unit).trans ((Tokener.half_frame _).trans unescaped.toFrame)
  top := by rw [unescaped.top, Tokener.half, tok.unit_top]
  pb := by rw [unescaped.pb, Tokener.half, tok.unit_pb, List.append_assoc]
  quoteChar := unescaped.quoteChar.trans (tok.unit_quoteChar hi unit)

/-- Three digits are gathered. -/
theorem unicodeLoop_digits (ha : a ∈ jsonHexChars) (hb : b ∈ jsonHexChars) (hc : c ∈ jsonHexChars)
    (pos : tok.stPos = 0) :
    unicodeLoop tok obj hi (a :: b :: c :: d :: rest) =
      unicodeLoop (((tok.digit a).digit b).digit c) obj hi (d :: rest) := by
  have step {tok : Tokener δ} {c c' : UInt8} {rest : List UInt8} (hex : c ∈ jsonHexChars)
      (early : tok.stPos + 1 ≠ 4) :
      unicodeLoop tok obj hi (c :: c' :: rest) =
        unicodeLoop (tok.digit c) obj hi (c' :: rest) := by
    rw [unicodeLoop, if_pos (isHexChar_of_mem hex)]
    dsimp only
    rw [if_neg (by exact early), if_neg (hex_ne_zero hex)]
  rw [step ha (by omega), step hb, step hc]
  · simp [Tokener.digit, pos]
  · simp [Tokener.digit, pos]

/-- Four digits make a code unit. -/
theorem digit_four (pos : tok.stPos = 0) (zero : tok.ucsChar = 0) :
    (((tok.digit a).digit b).digit c).digit d =
      { tok with ucsChar := codeWord a b c d, stPos := 4 } := by
  simp [Tokener.digit, pos, zero, codeWord]

section Four

variable (hex : HexDigits a b c d) (pos : tok.stPos = 0) (zero : tok.ucsChar = 0)

include hex pos zero

/-- Four digits that make no high surrogate end the escape. -/
theorem unicodeLoop_last
    (last : isHighSurrogate (combined hi (codeWord a b c d)).1 = false) :
    unicodeLoop tok obj hi (a :: b :: c :: d :: rest) =
      .inl ⟨(tok.unit hi (codeWord a b c d)).unescape
        (unescapedUtf (combined hi (codeWord a b c d)).1), obj, rest⟩ := by
  obtain ⟨ha, hb, hc, hd⟩ := hex
  rw [unicodeLoop_digits ha hb hc pos, unicodeLoop, if_pos (isHexChar_of_mem hd),
    digit_four pos zero]
  dsimp only
  rw [if_pos rfl, ← Tokener.unit, Tokener.unit_ucsChar, if_neg (by rw [last]; decide), advance,
    if_neg (hex_ne_zero hd)]
  rfl

/-- Four digits that make a high surrogate, with no escape behind them. -/
theorem unicodeLoop_alone (high : isHighSurrogate (combined hi (codeWord a b c d)).1)
    (alone : ∀ more, rest ≠ 0x5C :: 0x75 :: more) :
    unicodeLoop tok obj hi (a :: b :: c :: d :: rest) =
      .inl ⟨(tok.unit hi (codeWord a b c d)).unescape utf8ReplacementChar, obj, rest⟩ := by
  obtain ⟨ha, hb, hc, hd⟩ := hex
  rw [unicodeLoop_digits ha hb hc pos, unicodeLoop, if_pos (isHexChar_of_mem hd),
    digit_four pos zero]
  dsimp only
  rw [if_pos rfl, ← Tokener.unit, Tokener.unit_ucsChar, if_pos high, advance,
    if_neg (hex_ne_zero hd)]
  rcases rest with _ | ⟨b, _ | ⟨u, more⟩⟩
  · rfl
  · rfl
  · dsimp only
    rw [if_neg]
    · rfl
    · rintro ⟨rfl, rfl⟩
      exact alone more rfl

/-- Four digits that make a high surrogate, and another escape. -/
theorem unicodeLoop_more (high : isHighSurrogate (combined hi (codeWord a b c d)).1)
    (more : List UInt8) :
    unicodeLoop tok obj hi (a :: b :: c :: d :: 0x5C :: 0x75 :: more) =
      match more with
      | [] => .inr (starve ((tok.unit hi (codeWord a b c d)).append utf8ReplacementChar))
      | _ :: _ =>
        unicodeLoop (tok.unit hi (codeWord a b c d)).half obj
          (combined hi (codeWord a b c d)).1 more := by
  obtain ⟨ha, hb, hc, hd⟩ := hex
  rw [unicodeLoop_digits ha hb hc pos, unicodeLoop, if_pos (isHexChar_of_mem hd),
    digit_four pos zero]
  dsimp only
  rw [if_pos rfl, ← Tokener.unit, Tokener.unit_ucsChar, if_pos high, if_pos ⟨rfl, rfl⟩,
    if_neg (hex_ne_zero hd)]
  rfl

end Four

/-- What the grammar says about an escape, the loop does. -/
theorem Units.loop {before : Option ℕ} {u bytes : List UInt8} {alone : Bool}
    (units : Units before u bytes alone) (is_before : before = pending hi) (pos : tok.stPos = 0)
    (zero : tok.ucsChar = 0) (ahead : alone → ∀ more, rest ≠ 0x5C :: 0x75 :: more) :
    ∃ tok', unicodeLoop tok obj hi (u ++ rest) = .inl ⟨tok', obj, rest⟩ ∧
      Unescaped tok tok' bytes := by
  induction units generalizing tok hi with
  | last unit last =>
    obtain ⟨hex, unit_lt, same⟩ := joined_of_codeUnit unit hi
    rw [is_before, same] at last ⊢
    have low : isHighSurrogate (combined hi (codeWord _ _ _ _)).1 = false :=
      Bool.eq_false_iff.mpr (mt (isHighSurrogate_iff _).mp last)
    rw [← unescapedUtf_eq (combined_lt unit_lt hi) last]
    exact ⟨_, unicodeLoop_last hex pos zero low, tok.unit_unescape _ _ _⟩
  | alone unit high =>
    obtain ⟨hex, -, same⟩ := joined_of_codeUnit unit hi
    rw [is_before, same] at high ⊢
    have high := (isHighSurrogate_iff _).mpr high
    exact ⟨_, unicodeLoop_alone hex pos zero high (ahead rfl), tok.unit_unescape _ _ _⟩
  | @more before a b c d u w bytes alone unit high units ih =>
    obtain ⟨hex, -, same⟩ := joined_of_codeUnit unit hi
    rw [is_before, same] at high ih ⊢
    obtain ⟨tok', looped, unescaped⟩ := @ih (tok.unit hi (codeWord a b c d)).half
      (combined hi (codeWord a b c d)).1 (pending_of_high high).symm rfl rfl ahead
    obtain ⟨c', more, rfl⟩ : ∃ c' more, w = c' :: more := by
      cases units <;> exact ⟨_, _, rfl⟩
    have high := (isHighSurrogate_iff _).mpr high
    exact ⟨tok', (unicodeLoop_more hex pos zero high _).trans looped, unescaped.of_half⟩

/-- A digit that is not zero. -/
theorem mem_of_isHexChar {c : UInt8} (hex : isHexChar c) (nonzero : c ≠ 0) : c ∈ jsonHexChars := by
  simpa [isHexChar, nonzero] using hex

/-- If the loop goes on, it has taken a digit. -/
theorem unicodeLoop_digit {str : List UInt8} {p : Parse δ}
    (goes : unicodeLoop tok obj hi str = .inl p) :
    ∃ c rest, str = c :: rest ∧ c ∈ jsonHexChars ∧
      (tok.stPos + 1 ≠ 4 → unicodeLoop (tok.digit c) obj hi rest = .inl p) := by
  cases str with
  | nil => cases goes
  | cons c rest =>
    by_cases hex : isHexChar c
    · by_cases zero : c = 0
      · -- A zero ends the text, whatever it has been taken for.
        exfalso
        rw [unicodeLoop, if_pos hex] at goes
        simp only [advance, if_pos zero] at goes
        rcases rest with _ | ⟨b, _ | ⟨u, more⟩⟩ <;> dsimp only at goes <;> split_ifs at goes
      · refine ⟨c, rest, rfl, mem_of_isHexChar hex zero, fun early => ?_⟩
        rw [unicodeLoop, if_pos hex] at goes
        dsimp only at goes
        rw [if_neg (by exact early), if_neg zero] at goes
        cases rest with
        | nil => cases goes
        | cons c' rest => exact goes
    · rw [unicodeLoop, if_neg hex] at goes
      cases goes

/-- What the loop does about an escape, the grammar says. -/
theorem unicodeLoop_units {str : List UInt8} {p : Parse δ}
    (goes : unicodeLoop tok obj hi str = .inl p) (pos : tok.stPos = 0) (zero : tok.ucsChar = 0) :
    ∃ u bytes alone tok' rest, str = u ++ rest ∧ p = ⟨tok', obj, rest⟩ ∧
      Units (pending hi) u bytes alone ∧ (alone → ∀ more, rest ≠ 0x5C :: 0x75 :: more) ∧
      Unescaped tok tok' bytes := by
  -- On the text that is left: behind a high surrogate the loop begins again.
  induction length : str.length using Nat.strong_induction_on generalizing str tok hi with
  | _ n ih =>
    -- The loop only goes on behind four digits.
    obtain ⟨a, str₁, rfl, ha, goes₁⟩ := unicodeLoop_digit goes
    have goes₁ := goes₁ (by omega)
    obtain ⟨b, str₂, rfl, hb, goes₂⟩ := unicodeLoop_digit goes₁
    have goes₂ := goes₂ (by simp [Tokener.digit, pos])
    obtain ⟨c, str₃, rfl, hc, goes₃⟩ := unicodeLoop_digit goes₂
    have goes₃ := goes₃ (by simp [Tokener.digit, pos])
    obtain ⟨d, rest, rfl, hd, -⟩ := unicodeLoop_digit goes₃
    have hex : HexDigits a b c d := ⟨ha, hb, hc, hd⟩
    obtain ⟨unit, small⟩ := hex.toNat
    have same := joined_pending hi (codeWord a b c d)
    cases high : isHighSurrogate (combined hi (codeWord a b c d)).1 with
    | false =>
      rw [unicodeLoop_last hex pos zero high] at goes
      cases goes
      have no_high : ¬ HighSurrogate (combined hi (codeWord a b c d)).1.toNat :=
        mt (isHighSurrogate_iff _).mpr (Bool.eq_false_iff.mp high)
      have units := @Units.last (pending hi) a b c d _ unit (by rwa [same])
      rw [same, ← unescapedUtf_eq (combined_lt small hi) no_high] at units
      exact ⟨[a, b, c, d], _, false, _, rest, rfl, rfl, units,
        fun is_alone => absurd is_alone Bool.false_ne_true, tok.unit_unescape _ _ _⟩
    | true =>
      have is_high := (isHighSurrogate_iff _).mp high
      by_cases alone : ∀ more, rest ≠ 0x5C :: 0x75 :: more
      · rw [unicodeLoop_alone hex pos zero high alone] at goes
        cases goes
        have units := @Units.alone (pending hi) a b c d _ unit (by rwa [same])
        rw [same] at units
        exact ⟨[a, b, c, d], _, true, _, rest, rfl, rfl, units, fun _ => alone,
          tok.unit_unescape _ _ _⟩
      · push Not at alone
        obtain ⟨more, rfl⟩ := alone
        rw [unicodeLoop_more hex pos zero high] at goes
        cases more with
        | nil => cases goes
        | cons c' more =>
          obtain ⟨u, bytes, alone, tok', rest, split, rfl, units, ahead, unescaped⟩ :=
            ih _ (by rw [← length]; simp only [List.length_cons]; omega) goes rfl rfl rfl
          rw [pending_of_high is_high] at units
          have all := @Units.more (pending hi) a b c d _ u bytes alone unit (by rwa [same])
            (by rwa [same])
          rw [same] at all
          refine ⟨a :: b :: c :: d :: 0x5C :: 0x75 :: u, _, alone, tok', rest, ?_, rfl, all,
            ahead, ?_⟩
          · rw [split]
            rfl
          · exact unescaped.of_half

end LinuxProgram.JsonC
