import Mathlib.Data.List.TakeWhile
import Mathlib.Data.Nat.Digits.Lemmas

/-!
# Text in C buffers

A `char` array is the list of its bytes. The text in it ends before the first zero
byte. `decimal` is what `%d` and `%ld` print.

`store_text` is the rule that the programs rely on: text without a zero byte,
stored in a buffer that has room for it and its terminator, is read back unchanged.
-/

namespace LinuxProgram.Base

/-- The text in a buffer: the bytes before the first zero byte. -/
def text (buf : List UInt8) : List UInt8 := buf.takeWhile (· ≠ 0)

/-- `strlen`. -/
def strlen (buf : List UInt8) : ℕ := (text buf).length

/-- What `sprintf` does to a buffer: store the text and a terminator. -/
def store (buf txt : List UInt8) : List UInt8 := txt ++ 0 :: buf.drop (txt.length + 1)

/-- `strcpy`. -/
def strcpy (dst src : List UInt8) : List UInt8 := store dst (text src)

/-- `strcat`. -/
def strcat (dst src : List UInt8) : List UInt8 := store dst (text dst ++ text src)

/-- `strncmp`. A string that has ended reads as zero bytes. -/
def strncmp : List UInt8 → List UInt8 → ℕ → ℤ
  | _, _, 0 => 0
  | s₁, s₂, n + 1 =>
    let c₁ := s₁.headD 0
    let c₂ := s₂.headD 0
    if c₁ ≠ c₂ then (c₁.toNat : ℤ) - c₂.toNat
    else if c₁ = 0 then 0
    else strncmp s₁.tail s₂.tail n

/-- `tolower` in the C locale. -/
def tolower (c : UInt8) : UInt8 := if 0x41 ≤ c ∧ c ≤ 0x5A then c + 0x20 else c

/-- `isspace` in the C locale. -/
def isspace (c : UInt8) : Bool := c = 0x20 || (0x09 ≤ c && c ≤ 0x0D)

/-- `isdigit`. -/
def isdigit (c : UInt8) : Bool := 0x30 ≤ c && c ≤ 0x39

/-- `strncasecmp`. -/
def strncasecmp (s₁ s₂ : List UInt8) (n : ℕ) : ℤ := strncmp (s₁.map tolower) (s₂.map tolower) n

/-- `strncmp` compares beginnings, if the first string is long enough. -/
theorem strncmp_eq_zero_iff {s₁ s₂ : List UInt8} {n : ℕ} (long : n ≤ s₁.length) (plain : 0 ∉ s₁) :
    strncmp s₁ s₂ n = 0 ↔ s₂.take n = s₁.take n := by
  induction n generalizing s₁ s₂ with
  | zero => simp [strncmp]
  | succ n ih =>
    cases s₁ with
    | nil => cases long
    | cons c₁ s₁ =>
      rw [List.mem_cons, not_or] at plain
      have nonzero : c₁ ≠ 0 := fun zero => plain.1 zero.symm
      cases s₂ with
      | nil =>
        simp only [strncmp, List.headD_cons, List.headD_nil, List.take_nil, List.take_succ_cons,
          ne_eq, nonzero, not_false_eq_true, if_true, reduceCtorEq, iff_false]
        intro same
        apply nonzero
        rw [← UInt8.toNat_inj]
        simpa using same
      | cons c₂ s₂ =>
        by_cases same : c₁ = c₂
        · subst same
          simp only [strncmp, List.headD_cons, List.tail_cons, ne_eq, not_true_eq_false, if_false,
            nonzero, List.take_succ_cons, List.cons.injEq, true_and]
          exact ih (Nat.le_of_succ_le_succ long) plain.2
        · simp only [strncmp, List.headD_cons, ne_eq, same, not_false_eq_true, if_true,
            List.take_succ_cons, List.cons.injEq]
          constructor
          · intro zero
            exact absurd (UInt8.toNat_inj.mp (by omega)) same
          · rintro ⟨rfl, -⟩
            exact absurd rfl same

theorem store_text {buf txt : List UInt8} (plain : ∀ b ∈ txt, b ≠ 0) :
    text (store buf txt) = txt := by
  rw [text, store, List.takeWhile_append_of_pos (by simpa using plain),
    List.takeWhile_cons_of_neg (by simp), List.append_nil]

theorem store_length {buf txt : List UInt8} (room : txt.length < buf.length) :
    (store buf txt).length = buf.length := by
  simp only [store, List.length_append, List.length_cons, List.length_drop]
  omega

theorem text_of_plain {txt : List UInt8} (plain : 0 ∉ txt) : text txt = txt := by
  rw [text, List.takeWhile_eq_self_iff]
  intro b mem
  simpa using ne_of_mem_of_not_mem mem plain

theorem text_append_zero {txt rest : List UInt8} (plain : 0 ∉ txt) :
    text (txt ++ 0 :: rest) = txt := by
  rw [text, List.takeWhile_append_of_pos, List.takeWhile_cons_of_neg (by simp), List.append_nil]
  intro b mem
  simpa using ne_of_mem_of_not_mem mem plain

theorem text_ne_zero {buf : List UInt8} : ∀ b ∈ text buf, b ≠ 0 := by
  intro b mem
  simpa using List.mem_takeWhile_imp mem

@[simp] theorem text_strcpy (dst src : List UInt8) : text (strcpy dst src) = text src :=
  store_text text_ne_zero

@[simp] theorem text_strcat (dst src : List UInt8) :
    text (strcat dst src) = text dst ++ text src := by
  apply store_text
  intro b mem
  exact (List.mem_append.mp mem).elim (text_ne_zero b) (text_ne_zero b)

/-- The bytes of an ASCII text. -/
def ascii (s : String) : List UInt8 := s.toList.map fun c => UInt8.ofNat c.toNat

/-- What stands before the first separator is determined by the whole, and so is what stands
behind it. -/
theorem append_separator_inj {sep : UInt8} {a b c d : List UInt8} (plain_a : sep ∉ a)
    (plain_b : sep ∉ b) (same : a ++ sep :: c = b ++ sep :: d) : a = b ∧ c = d := by
  induction a generalizing b with
  | nil =>
    cases b with
    | nil => exact ⟨rfl, (List.cons.inj same).2⟩
    | cons y b => exact absurd (List.cons.inj same).1 fun is_sep => plain_b (by simp [is_sep])
  | cons x a ih =>
    cases b with
    | nil => exact absurd (List.cons.inj same).1 fun is_sep => plain_a (by simp [is_sep])
    | cons y b =>
      obtain ⟨rfl, rest⟩ := List.cons.inj same
      obtain ⟨rfl, behind⟩ := ih (fun mem => plain_a (List.mem_cons_of_mem _ mem))
        (fun mem => plain_b (List.mem_cons_of_mem _ mem)) rest
      exact ⟨rfl, behind⟩

/-- Texts that differ early differ. -/
theorem append_ne_of_take {a b x y : List UInt8} (n : ℕ) (long_a : n ≤ a.length)
    (long_b : n ≤ b.length) (differ : a.take n ≠ b.take n) : a ++ x ≠ b ++ y := by
  intro same
  apply differ
  rw [← List.take_append_of_le_length long_a, same, List.take_append_of_le_length long_b]

/-- What is to hold of every byte can be checked byte by byte. -/
theorem forall_byte {P : UInt8 → Prop} (each : ∀ n < 256, P (UInt8.ofNat n)) (c : UInt8) : P c := by
  have := each c.toNat c.toNat_lt
  rwa [UInt8.ofNat_toNat] at this

/-! ### Decimal numbers -/

/-- The decimal digits of a natural number. -/
def decimalNat (n : ℕ) : List UInt8 :=
  if n = 0 then [0x30] else (Nat.digits 10 n).reverse.map fun d => UInt8.ofNat (0x30 + d)

/-- The text that `%d` prints. -/
def decimal (n : ℤ) : List UInt8 :=
  if n < 0 then 0x2D :: decimalNat n.natAbs else decimalNat n.natAbs

/-- Every byte of a printed natural number is a digit. -/
theorem decimalNat_digit {n : ℕ} {b : UInt8} (printed : b ∈ decimalNat n) :
    0x30 ≤ b.toNat ∧ b.toNat ≤ 0x39 := by
  unfold decimalNat at printed
  split_ifs at printed with zero
  · obtain rfl := List.mem_singleton.mp printed
    decide
  · obtain ⟨d, hd, rfl⟩ := List.mem_map.mp printed
    have small := Nat.digits_lt_base (by decide : 1 < 10) (List.mem_reverse.mp hd)
    rw [UInt8.toNat_ofNat', Nat.mod_eq_of_lt (by omega)]
    omega

/-- The digits are read back as the number. -/
theorem ofDigits_decimalNat (n : ℕ) :
    Nat.ofDigits 10 ((decimalNat n).reverse.map fun b => b.toNat - 0x30) = n := by
  unfold decimalNat
  split_ifs with zero
  · rw [zero]
    rfl
  · have back : (Nat.digits 10 n).map ((fun b : UInt8 => b.toNat - 0x30) ∘
        fun d => UInt8.ofNat (0x30 + d)) = (Nat.digits 10 n).map id := by
      apply List.map_congr_left
      intro d hd
      have small := Nat.digits_lt_base (by decide : 1 < 10) hd
      simp only [Function.comp_apply, id_eq]
      rw [UInt8.toNat_ofNat', Nat.mod_eq_of_lt (by omega)]
      omega
    rw [← List.map_reverse, List.reverse_reverse, List.map_map, back, List.map_id,
      Nat.ofDigits_digits]

theorem decimalNat_injective : Function.Injective decimalNat := by
  intro m n same
  rw [← ofDigits_decimalNat m, same, ofDigits_decimalNat]

/-- Every byte of a printed number is a digit or the minus sign. -/
theorem decimal_byte {n : ℤ} {b : UInt8} (printed : b ∈ decimal n) :
    0x2D ≤ b.toNat ∧ b.toNat ≤ 0x39 := by
  unfold decimal at printed
  split_ifs at printed with negative
  · rcases List.mem_cons.mp printed with rfl | digit
    · decide
    · have := decimalNat_digit digit
      omega
  · have := decimalNat_digit printed
    omega

theorem decimal_ne_zero {n : ℤ} : ∀ b ∈ decimal n, b ≠ 0 := by
  rintro b printed rfl
  exact absurd (decimal_byte printed).1 (by decide)

/-- Different numbers are printed differently. -/
theorem decimal_injective : Function.Injective decimal := by
  -- A minus sign is no digit, so the signs agree before the digits do.
  have sign : ∀ (k : ℕ) (rest : List UInt8), decimalNat k ≠ 0x2D :: rest := by
    intro k rest same
    have digit : 0x2D ∈ decimalNat k := by
      rw [same]
      exact List.mem_cons_self ..
    exact absurd (decimalNat_digit digit).1 (by decide)
  intro m n same
  unfold decimal at same
  split_ifs at same with hm hn hn
  · have := decimalNat_injective (List.cons.inj same).2
    omega
  · exact absurd same.symm (sign _ _)
  · exact absurd same (sign _ _)
  · have := decimalNat_injective same
    omega

/-- A number below a power of ten has at most as many digits. -/
theorem decimalNat_length_le {n k : ℕ} (small : n < 10 ^ k) (some_digit : 0 < k) :
    (decimalNat n).length ≤ k := by
  unfold decimalNat
  split_ifs
  · exact some_digit
  · rw [List.length_map, List.length_reverse, Nat.digits_length_le_iff (by decide)]
    exact small

/-- A printed `int` has at most eleven characters. -/
theorem decimal_length_le {n : ℤ} (lower : -2 ^ 31 ≤ n) (upper : n < 2 ^ 31) :
    (decimal n).length ≤ 11 := by
  have digits : (decimalNat n.natAbs).length ≤ 10 := decimalNat_length_le (by omega) (by decide)
  unfold decimal
  split_ifs
  · rw [List.length_cons]
    omega
  · omega

end LinuxProgram.Base
