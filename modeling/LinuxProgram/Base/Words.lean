import Mathlib.Data.Nat.Bitwise
import Mathlib.Tactic.Ring

/-!
# Machine words

Conversions between the integer types of a 64-bit C program, and rounding up to
a multiple of four under a 32-bit mask.

Values are plain naturals and integers; each conversion says which bits it
keeps. Rounding comes in three forms. `alignUp` is exact. `alignU32` and
`alignSize` are what a C expression `((n) + 4U - 1) & ~(4U - 1)` computes on a
32-bit and on a 64-bit operand: the mask `~3U` has 32 bits, so on a 64-bit
operand it also clears the upper half.
-/

namespace LinuxProgram.Base

/-- Conversion to a 32-bit `int`: the low 32 bits, read in two's complement. -/
@[irreducible] def toInt32 (n : ℤ) : ℤ := (n + 2 ^ 31) % 2 ^ 32 - 2 ^ 31

/-- Conversion to a 64-bit `long`. -/
@[irreducible] def toInt64 (n : ℤ) : ℤ := (n + 2 ^ 63) % 2 ^ 64 - 2 ^ 63

/-- Conversion to a 32-bit `unsigned int`. -/
def toUInt32 (n : ℤ) : ℕ := (n % 2 ^ 32).toNat

/-- Conversion to a 64-bit `size_t`. -/
def toSize (n : ℤ) : ℕ := (n % 2 ^ 64).toNat

theorem toInt32_of_range {n : ℤ} (lower : -2 ^ 31 ≤ n) (upper : n < 2 ^ 31) :
    toInt32 n = n := by
  unfold toInt32
  omega

theorem toInt32_lower (n : ℤ) : -2 ^ 31 ≤ toInt32 n := by
  unfold toInt32
  omega

theorem toInt32_upper (n : ℤ) : toInt32 n < 2 ^ 31 := by
  unfold toInt32
  omega

/-- The sign of an `int` is the high bit of the 32 bits it is made from. -/
theorem toInt32_neg_iff {n : ℤ} (lower : 0 ≤ n) (upper : n < 2 ^ 32) :
    toInt32 n < 0 ↔ 2 ^ 31 ≤ n := by
  unfold toInt32
  omega

theorem toUInt32_of_range {n : ℤ} (lower : 0 ≤ n) (upper : n < 2 ^ 32) :
    (toUInt32 n : ℤ) = n := by
  unfold toUInt32
  omega

theorem toUInt32_lt (n : ℤ) : toUInt32 n < 2 ^ 32 := by
  unfold toUInt32
  omega

/-- An `int` read back from an unsigned difference is the exact difference,
as long as that difference is an `int`. -/
theorem toInt32_sub_of_range {n : ℤ} {k : ℕ} (lower : 0 ≤ n) (upper : n < 2 ^ 31)
    (small : (k : ℤ) ≤ 2 ^ 31) : toInt32 ((toUInt32 n : ℤ) - k) = n - k := by
  rw [toUInt32_of_range lower (by omega)]
  exact toInt32_of_range (by omega) (by omega)

/-- A 32-bit length passed as `int` and then as `size_t` keeps its value when it
is below `2 ^ 31`. -/
theorem toSize_toInt32_of_lt {n : ℕ} (small : n < 2 ^ 31) : toSize (toInt32 n) = n := by
  rw [toInt32_of_range (by omega) (by omega)]
  unfold toSize
  omega

/-- From `2 ^ 31` on, the sign extension makes the length enormous. -/
theorem toSize_toInt32_of_ge {n : ℕ} (large : 2 ^ 31 ≤ n) (word : n < 2 ^ 32) :
    toSize (toInt32 n) = n + (2 ^ 64 - 2 ^ 32) := by
  unfold toSize toInt32
  omega

/-- Counting in an `int` is counting modulo its range. -/
theorem toInt32_succ (n : ℤ) : toInt32 (toInt32 n + 1) = toInt32 (n + 1) := by
  unfold toInt32
  omega

theorem toInt32_add (m n : ℤ) : toInt32 (toInt32 m + n) = toInt32 (m + n) := by
  unfold toInt32
  omega

/-- An `int` survives the way through its 32 bits. -/
theorem toInt32_toUInt32 {n : ℤ} (lower : -2 ^ 31 ≤ n) (upper : n < 2 ^ 31) :
    toInt32 (toUInt32 n) = n := by
  unfold toInt32 toUInt32
  omega

theorem toInt64_of_range {n : ℤ} (lower : -2 ^ 63 ≤ n) (upper : n < 2 ^ 63) :
    toInt64 n = n := by
  unfold toInt64
  omega

theorem toInt64_upper (n : ℤ) : toInt64 n < 2 ^ 63 := by
  unfold toInt64
  omega

/-- Adding in a `long` is adding modulo its range. -/
theorem toInt64_add (m n : ℤ) : toInt64 (toInt64 m + toInt64 n) = toInt64 (m + n) := by
  unfold toInt64
  omega

/-- A `long` survives the way through its 64 bits. -/
theorem toInt64_toSize {n : ℤ} (lower : -2 ^ 63 ≤ n) (upper : n < 2 ^ 63) :
    toInt64 (toSize n) = n := by
  unfold toInt64 toSize
  omega

theorem toSize_lt (n : ℤ) : toSize n < 2 ^ 64 := by
  unfold toSize
  omega

/-! ### Signed arithmetic -/

/-- A sum or a product of type `int`; C leaves one that does not fit undefined. -/
def asInt (n : ℕ) : Option ℕ := if n < 2 ^ 31 then some n else none

theorem asInt_of_lt {n : ℕ} (small : n < 2 ^ 31) : asInt n = some n := if_pos small

/-! ### Rounding up to a multiple of four -/

/-- The least multiple of four that is at least `n`. -/
def alignUp (n : ℕ) : ℕ := (n + 3) / 4 * 4

/-- `((n) + 4U - 1) & ~(4U - 1)` on a 32-bit operand. -/
def alignU32 (n : ℕ) : ℕ := (n + 3) % 2 ^ 32 &&& 0xFFFFFFFC

/-- `((n) + 4U - 1) & ~(4U - 1)` on a 64-bit operand. -/
def alignSize (n : ℕ) : ℕ := (n + 3) % 2 ^ 64 &&& 0xFFFFFFFC

theorem le_alignUp (n : ℕ) : n ≤ alignUp n := by
  unfold alignUp
  omega

theorem alignUp_mod (n : ℕ) : alignUp n % 4 = 0 := by
  unfold alignUp
  omega

theorem alignUp_of_mod {n : ℕ} (aligned : n % 4 = 0) : alignUp n = n := by
  unfold alignUp
  omega

/-- Rounding up does not pass a multiple of four. -/
theorem alignUp_le {n k : ℕ} (aligned : k % 4 = 0) (h : n ≤ k) : alignUp n ≤ k := by
  unfold alignUp
  omega

/-- The mask `~3U` clears the two low bits and everything above bit 31. -/
theorem and_mask (n : ℕ) : n &&& 0xFFFFFFFC = n % 2 ^ 32 / 4 * 4 := by
  have mask : (0xFFFFFFFC : ℕ) = (2 ^ 30 - 1) <<< 2 := by decide
  -- Both sides keep the bits 2 to 31.
  apply Nat.eq_of_testBit_eq
  intro i
  rw [show n % 2 ^ 32 / 4 * 4 = ((n % 2 ^ 32) >>> 2) <<< 2 by
    rw [Nat.shiftLeft_eq, Nat.shiftRight_eq_div_pow], mask]
  simp only [Nat.testBit_and, Nat.testBit_shiftLeft, Nat.testBit_shiftRight,
    Nat.testBit_mod_two_pow, Nat.testBit_two_pow_sub_one]
  by_cases low : 2 ≤ i
  · by_cases high : i < 32
    · simp [low, high, show i - 2 < 30 by omega, show 2 + (i - 2) = i by omega]
    · simp [high, show ¬ i - 2 < 30 by omega, low]
  · simp [low]

theorem alignU32_eq {n : ℕ} (small : n ≤ 2 ^ 32 - 4) : alignU32 n = alignUp n := by
  rw [alignU32, and_mask, alignUp]
  omega

theorem alignU32_lt (n : ℕ) : alignU32 n < 2 ^ 32 := by
  rw [alignU32, and_mask]
  omega

theorem alignU32_mod (n : ℕ) : alignU32 n % 4 = 0 := by
  rw [alignU32, and_mask]
  omega

/-- Rounding a 32-bit length up gives zero at zero and where it wraps around. -/
theorem alignU32_eq_zero {n : ℕ} (word : n < 2 ^ 32) :
    alignU32 n = 0 ↔ n = 0 ∨ 2 ^ 32 - 4 < n := by
  rw [alignU32, and_mask]
  omega

theorem alignSize_eq {n : ℕ} (small : n ≤ 2 ^ 32 - 4) : alignSize n = alignUp n := by
  rw [alignSize, and_mask, alignUp]
  omega

theorem alignSize_le (n : ℕ) : alignSize n ≤ 2 ^ 32 - 4 := by
  rw [alignSize, and_mask]
  omega

end LinuxProgram.Base
