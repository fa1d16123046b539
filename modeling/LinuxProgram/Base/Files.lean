import Mathlib.Data.List.Basic
import Mathlib.Tactic.Ring

/-!
# Regular files

A file is the list of its bytes. Writing at an offset replaces what stands there,
lengthens the file where the data goes beyond its end, and fills a gap with zeros.

Two facts carry the reasoning about processes that share a file. Data written piece
by piece, each piece where the one before ended, is written as a whole
(`pwrite_pwrite`). A file of equal records stays one when a record is written at a
multiple of the record length (`pwrite_records`), however far the writers are apart.
-/

namespace LinuxProgram.Base

/-- The data read at an offset: what there is, up to a number of bytes. -/
def pread (file : List UInt8) (off count : ℕ) : List UInt8 := (file.drop off).take count

/-- The file after data was written at an offset. -/
def pwrite (file : List UInt8) (off : ℕ) : List UInt8 → List UInt8
  | [] => file
  | data@(_ :: _) =>
    file.take off ++ List.replicate (off - file.length) 0 ++ data ++ file.drop (off + data.length)

/-- A file that consists of copies of one record. -/
def records (record : List UInt8) (n : ℕ) : List UInt8 := (List.replicate n record).flatten

section Pwrite

variable {file : List UInt8} {off : ℕ}

@[simp] theorem pwrite_nil (file : List UInt8) (off : ℕ) : pwrite file off [] = file := rfl

/-- Within the file or at its end there is no gap to fill. -/
theorem pwrite_of_le (inside : off ≤ file.length) (data : List UInt8) :
    pwrite file off data = file.take off ++ data ++ file.drop (off + data.length) := by
  cases data with
  | nil => simp
  | cons b data => simp [pwrite, Nat.sub_eq_zero_of_le inside]

/-- Data written piece by piece is written as a whole. -/
theorem pwrite_pwrite (inside : off ≤ file.length) (first second : List UInt8) :
    pwrite (pwrite file off first) (off + first.length) second =
      pwrite file off (first ++ second) := by
  have held : (file.take off).length = off := List.length_take_of_le inside
  have longer : off + first.length ≤ (pwrite file off first).length := by
    rw [pwrite_of_le inside]
    simp only [List.length_append, held]
    omega
  rw [pwrite_of_le longer, pwrite_of_le inside, pwrite_of_le inside]
  -- The second piece begins where `take off ++ first` ends.
  have start : (file.take off ++ first).length = off + first.length := by
    rw [List.length_append, held]
  rw [← start, List.take_left, ← List.drop_drop, List.drop_left, List.drop_drop,
    List.length_append, held]
  simp only [List.append_assoc, List.length_append, Nat.add_assoc]

end Pwrite

section Records

variable {record : List UInt8} {m n : ℕ}

@[simp] theorem records_length (record : List UInt8) (n : ℕ) :
    (records record n).length = n * record.length := by
  simp [records]

theorem records_add : records record (m + n) = records record m ++ records record n := by
  rw [records, List.replicate_add, List.flatten_append]
  rfl

@[simp] theorem records_one (record : List UInt8) : records record 1 = record := by simp [records]

/-- The records from a record boundary on. -/
theorem drop_records (m n : ℕ) :
    (records record n).drop (m * record.length) = records record (n - m) := by
  obtain inside | outside := Nat.le_total m n
  · obtain ⟨k, rfl⟩ := Nat.exists_eq_add_of_le inside
    rw [records_add, ← records_length record m, List.drop_left,
      Nat.add_sub_cancel_left]
  · rw [List.drop_eq_nil_of_le, Nat.sub_eq_zero_of_le outside]
    · rfl
    · rw [records_length]
      exact Nat.mul_le_mul_right _ outside

/-- The records up to a record boundary. -/
theorem take_records (inside : m ≤ n) :
    (records record n).take (m * record.length) = records record m := by
  obtain ⟨k, rfl⟩ := Nat.exists_eq_add_of_le inside
  rw [records_add, ← records_length record m, List.take_left]

/-- Reading one record's length at a record boundary gives a whole record or nothing. -/
theorem pread_records (m n : ℕ) :
    pread (records record n) (m * record.length) record.length = if m < n then record else [] := by
  rw [pread, drop_records]
  split_ifs with inside
  · obtain ⟨k, hk⟩ : ∃ k, n - m = 1 + k := ⟨n - m - 1, by omega⟩
    rw [hk, records_add, records_one, List.take_left]
  · rw [Nat.sub_eq_zero_of_le (by omega)]
    exact List.take_nil

/-- A record written at a record boundary replaces a record or is appended. -/
theorem pwrite_records (inside : m ≤ n) :
    pwrite (records record n) (m * record.length) record = records record (max n (m + 1)) := by
  have within : m * record.length ≤ (records record n).length := by
    rw [records_length]
    exact Nat.mul_le_mul_right _ inside
  have next : m * record.length + record.length = (m + 1) * record.length := by ring
  rw [pwrite_of_le within, take_records inside, next, drop_records]
  conv_lhs => arg 1; arg 2; rw [← records_one record]
  rw [← records_add, ← records_add]
  congr 1
  omega

end Records

end LinuxProgram.Base
