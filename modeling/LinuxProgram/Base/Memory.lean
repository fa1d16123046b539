import LinuxProgram.Base.Words
import Mathlib.Data.List.Basic
import Mathlib.Data.List.TakeDrop

/-!
# Byte memory

A memory block is the function from offsets to bytes; offsets past the end of
the block name whatever lies behind it, so a read or write out of bounds is
expressible instead of being ruled out by the type. Multi-byte fields are
little-endian.

* `Memory.read`, `Memory.write` — a run of bytes at an offset
* `Memory.Holds` — a block holds given bytes at an offset
* `leNat`, `leBytes` — little-endian numbers and their bytes
* `Memory.u16`, `Memory.u32`, `Memory.i32` — fields
-/

namespace LinuxProgram.Base

/-! ### Little-endian numbers -/

/-- The number whose little-endian bytes are given. -/
def leNat : List UInt8 → ℕ
  | [] => 0
  | b :: bs => b.toNat + 256 * leNat bs

/-- The `width` low bytes of a number, least significant first. -/
def leBytes : (width : ℕ) → ℕ → List UInt8
  | 0, _ => []
  | width + 1, n => UInt8.ofNat n :: leBytes width (n / 256)

@[simp] theorem leBytes_length (width n : ℕ) : (leBytes width n).length = width := by
  induction width generalizing n with
  | zero => rfl
  | succ width ih => simp [leBytes, ih]

theorem leBytes_take {width k : ℕ} (shorter : k ≤ width) (n : ℕ) :
    (leBytes width n).take k = leBytes k n := by
  induction k generalizing width n with
  | zero => rfl
  | succ k ih =>
    obtain ⟨width, rfl⟩ : ∃ w, width = w + 1 := ⟨width - 1, by omega⟩
    rw [leBytes, leBytes, List.take_succ_cons, ih (by omega)]

theorem leNat_leBytes (width n : ℕ) : leNat (leBytes width n) = n % 256 ^ width := by
  induction width generalizing n with
  | zero => simp [leBytes, leNat, Nat.mod_one]
  | succ width ih =>
    rw [leBytes, leNat, ih, UInt8.toNat_ofNat', pow_succ' 256 width, Nat.mod_mul]

theorem leNat_lt (bs : List UInt8) : leNat bs < 256 ^ bs.length := by
  induction bs with
  | nil => simp [leNat]
  | cons b bs ih =>
    have hb := b.toNat_lt
    rw [leNat, List.length_cons, pow_succ]
    omega

/-- Bytes are recovered from the number they encode. -/
theorem leBytes_leNat (bs : List UInt8) : leBytes bs.length (leNat bs) = bs := by
  induction bs with
  | nil => rfl
  | cons b bs ih =>
    have hb := b.toNat_lt
    rw [List.length_cons, leNat, leBytes]
    congr 1
    · apply UInt8.toNat_inj.mp
      rw [UInt8.toNat_ofNat']
      omega
    · rw [show (b.toNat + 256 * leNat bs) / 256 = leNat bs by omega, ih]

/-- Only the bits that fit are stored. -/
theorem leBytes_mod (width n : ℕ) : leBytes width (n % 256 ^ width) = leBytes width n := by
  have bytes := leBytes_leNat (leBytes width n)
  rwa [leNat_leBytes, leBytes_length] at bytes

/-! ### Blocks -/

/-- The bytes of a block, indexed by their offset from its start. -/
abbrev Memory := ℕ → UInt8

namespace Memory

/-- The `n` bytes from offset `off` on. -/
def read (m : Memory) (off n : ℕ) : List UInt8 := (List.range n).map fun i => m (off + i)

/-- Store the bytes `bs` from offset `off` on. -/
def write (m : Memory) (off : ℕ) (bs : List UInt8) : Memory := fun i =>
  if off ≤ i then (bs[i - off]?).getD (m i) else m i

/-- `memset`: store `n` copies of a byte. -/
def fill (m : Memory) (off n : ℕ) (b : UInt8) : Memory := m.write off (List.replicate n b)

/-- The block holds the bytes `bs` at offset `off`. -/
def Holds (m : Memory) (off : ℕ) (bs : List UInt8) : Prop := m.read off bs.length = bs

variable {m m' : Memory} {off p n k i : ℕ} {bs cs : List UInt8}

@[simp] theorem read_length : (m.read off n).length = n := by simp [read]

theorem getElem_read (h : i < (m.read off n).length) : (m.read off n)[i] = m (off + i) := by
  simp [read]

theorem leNat_read_one (m : Memory) (off : ℕ) : leNat (m.read off 1) = (m off).toNat := by
  simp [read, leNat]

/-- Reading two adjacent runs is reading the joint run. -/
theorem read_add : m.read off (n + k) = m.read off n ++ m.read (off + n) k := by
  simp only [read, List.range_add, List.map_append, List.map_map]
  congr 1
  apply List.map_congr_left
  intro i _
  simp [Nat.add_assoc]

/-- A read depends only on the bytes it covers. -/
theorem read_congr (same : ∀ i, off ≤ i → i < off + n → m i = m' i) :
    m.read off n = m'.read off n := by
  apply List.map_congr_left
  intro i hi
  exact same _ (by omega) (by have := List.mem_range.mp hi; omega)

theorem write_apply_of_lt (h : i < off) : m.write off bs i = m i := by
  simp [write, Nat.not_le.mpr h]

theorem write_apply_of_ge (h : off + bs.length ≤ i) : m.write off bs i = m i := by
  have past : bs[i - off]? = none := List.getElem?_eq_none (by omega)
  simp [write, past]

theorem write_apply_inside (h : i < bs.length) : m.write off bs (off + i) = bs[i] := by
  simp [write, h]

/-- A write changes nothing outside the bytes it stores. -/
theorem write_apply_outside (h : i < off ∨ off + bs.length ≤ i) : m.write off bs i = m i :=
  h.elim write_apply_of_lt write_apply_of_ge

theorem fill_apply_inside (lower : off ≤ i) (upper : i < off + n) (b : UInt8) :
    m.fill off n b i = b := by
  obtain ⟨j, rfl⟩ := Nat.exists_eq_add_of_le lower
  rw [fill, write_apply_inside (by simpa using upper)]
  simp

theorem fill_apply_outside (b : UInt8) (h : i < off ∨ off + n ≤ i) :
    m.fill off n b i = m i :=
  write_apply_outside (by simpa using h)

theorem read_write_same : (m.write off bs).read off bs.length = bs := by
  apply List.ext_getElem
  · simp
  · intro i _ hi
    rw [getElem_read, write_apply_inside hi]

/-- A read that starts with the written run sees it first. -/
theorem read_write_start :
    (m.write off bs).read off n = bs.take n ++ (m.read off n).drop bs.length := by
  apply List.ext_getElem
  · rw [read_length, List.length_append, List.length_take, List.length_drop, read_length]
    omega
  · intro i hi _
    have bound : i < n := by rwa [read_length] at hi
    rw [getElem_read]
    rcases lt_or_ge i bs.length with inside | outside
    · have taken : i < (bs.take n).length := by
        rw [List.length_take]
        omega
      rw [write_apply_inside inside, List.getElem_append_left taken, List.getElem_take]
    · have short : (bs.take n).length = bs.length := by
        rw [List.length_take]
        omega
      rw [write_apply_of_ge (by omega), List.getElem_append_right (by omega), List.getElem_drop,
        getElem_read]
      congr 1
      omega

/-- A read apart from the written run does not see the write. -/
theorem read_write_apart (apart : p + n ≤ off ∨ off + bs.length ≤ p) :
    (m.write off bs).read p n = m.read p n := by
  apply read_congr
  intro i lower upper
  exact write_apply_outside (by omega)

theorem read_fill_apart (b : UInt8) (apart : p + n ≤ off ∨ off + k ≤ p) :
    (m.fill off k b).read p n = m.read p n :=
  read_write_apart (by simpa using apart)

/-! ### What a block holds -/

theorem holds_write : (m.write off bs).Holds off bs := read_write_same

theorem holds_append :
    m.Holds off (bs ++ cs) ↔ m.Holds off bs ∧ m.Holds (off + bs.length) cs := by
  unfold Holds
  rw [List.length_append, read_add]
  exact List.append_eq_append_iff_of_size_eq_left read_length

theorem Holds.take (h : m.Holds off bs) (k : ℕ) : m.Holds off (bs.take k) := by
  rw [← List.take_append_drop k bs] at h
  exact (holds_append.mp h).1

theorem Holds.congr (h : m.Holds off bs)
    (same : ∀ i, off ≤ i → i < off + bs.length → m' i = m i) : m'.Holds off bs := by
  unfold Holds
  rw [read_congr same]
  exact h

/-- A field inside held bytes is read off these bytes. -/
theorem Holds.read_eq (h : m.Holds off bs) (inside : k + n ≤ bs.length) :
    m.read (off + k) n = (bs.drop k).take n := by
  have split : bs.length = k + (n + (bs.length - k - n)) := by omega
  have whole := h
  unfold Holds at whole
  rw [split, read_add, read_add] at whole
  rw [← whole, List.drop_left' read_length, List.take_left' read_length]

/-- One of the held bytes. -/
theorem Holds.getElem (h : m.Holds off bs) (inside : i < bs.length) : m (off + i) = bs[i] := by
  have same : (m.read off bs.length)[i]? = bs[i]? := congrArg (·[i]?) h
  simpa [read, inside] using same

theorem Holds.write_apart (h : m.Holds off bs)
    (apart : off + bs.length ≤ p ∨ p + cs.length ≤ off) : (m.write p cs).Holds off bs :=
  h.congr fun i _ _ => write_apply_outside (by omega)

theorem holds_replicate {b : UInt8} (same : ∀ i, off ≤ i → i < off + n → m i = b) :
    m.Holds off (List.replicate n b) := by
  apply List.ext_getElem
  · simp
  · intro i _ inside
    rw [getElem_read, List.getElem_replicate]
    exact same _ (by omega) (by simpa using inside)

/-- A run of held bytes is overwritten by as many others. -/
theorem Holds.replace {old new post : List UInt8} (h : m.Holds off (bs ++ old ++ post))
    (size : new.length = old.length) :
    (m.write (off + bs.length) new).Holds off (bs ++ new ++ post) := by
  rw [holds_append, holds_append] at h ⊢
  obtain ⟨⟨before, -⟩, after⟩ := h
  refine ⟨⟨before.write_apart (.inl (by omega)), holds_write⟩, ?_⟩
  simp only [List.length_append, size] at after ⊢
  exact after.write_apart (.inr (by omega))

/-! ### Fields -/

/-- The 16-bit field at an offset. -/
def u16 (m : Memory) (off : ℕ) : ℕ := leNat (m.read off 2)

/-- The 32-bit unsigned field at an offset. -/
def u32 (m : Memory) (off : ℕ) : ℕ := leNat (m.read off 4)

/-- The 32-bit signed field at an offset. -/
def i32 (m : Memory) (off : ℕ) : ℤ := toInt32 (m.u32 off)

/-- Store the low 16 bits of a number. -/
def setU16 (m : Memory) (off n : ℕ) : Memory := m.write off (leBytes 2 n)

/-- Store the low 32 bits of a number. -/
def setU32 (m : Memory) (off n : ℕ) : Memory := m.write off (leBytes 4 n)

theorem u16_lt : m.u16 off < 2 ^ 16 := by
  simpa [u16] using leNat_lt (m.read off 2)

theorem u32_lt : m.u32 off < 2 ^ 32 := by
  simpa [u32] using leNat_lt (m.read off 4)

/-- A 16-bit field is known by its bytes. -/
theorem holds_of_u16 (field : m.u16 off = n % 2 ^ 16) : m.Holds off (leBytes 2 n) := by
  have value : leBytes 2 (m.u16 off) = m.read off 2 := by
    simpa [u16] using leBytes_leNat (m.read off 2)
  rw [Holds, leBytes_length, ← value, field]
  exact leBytes_mod 2 n

theorem u16_of_holds (held : m.Holds off (leBytes 2 n)) : m.u16 off = n % 2 ^ 16 := by
  rw [Holds, leBytes_length] at held
  rw [u16, held, leNat_leBytes]
  rfl

theorem u16_setU16_same : (m.setU16 off n).u16 off = n % 2 ^ 16 := u16_of_holds holds_write

theorem u32_setU32_same : (m.setU32 off n).u32 off = n % 2 ^ 32 := by
  have stored : (m.setU32 off n).Holds off (leBytes 4 n) := holds_write
  rw [Holds, leBytes_length] at stored
  rw [u32, stored, leNat_leBytes]
  rfl

/-- The low half of a stored 32-bit field. -/
theorem u16_setU32_same : (m.setU32 off n).u16 off = n % 2 ^ 16 := by
  rw [u16, setU32, read_write_start, leBytes_take (by decide),
    List.drop_eq_nil_of_le (by simp), List.append_nil, leNat_leBytes]
  rfl

theorem setU16_apply_outside (h : i < off ∨ off + 2 ≤ i) : m.setU16 off n i = m i :=
  write_apply_outside (by simpa using h)

theorem setU32_apply_outside (h : i < off ∨ off + 4 ≤ i) : m.setU32 off n i = m i :=
  write_apply_outside (by simpa using h)

theorem u16_congr (same : ∀ i, off ≤ i → i < off + 2 → m i = m' i) : m.u16 off = m'.u16 off := by
  rw [u16, u16, read_congr same]

theorem u32_congr (same : ∀ i, off ≤ i → i < off + 4 → m i = m' i) : m.u32 off = m'.u32 off := by
  rw [u32, u32, read_congr same]

/-- A field at the start of a written run takes its first bytes from that run
and keeps its other bytes. -/
theorem u32_write_start :
    (m.write off bs).u32 off = leNat (bs.take 4 ++ (leBytes 4 (m.u32 off)).drop bs.length) := by
  have kept : leBytes 4 (m.u32 off) = m.read off 4 := by
    simpa [u32] using leBytes_leNat (m.read off 4)
  rw [u32, read_write_start, kept]

end Memory

end LinuxProgram.Base
