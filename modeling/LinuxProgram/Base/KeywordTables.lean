import LinuxProgram.Base.Text

/-!
# Packed keyword tables

A table of words with their codes, packed into one string. Each entry is the offset to
the next entry, the code, and the word with its terminator; the offset of the last
entry leads to the terminator of the whole string, which is also that of its word. A
search goes from entry to entry until the word is found or the string has ended.

`walk_pack` says that the search in a packed table is the search in the list of its
entries.
-/

namespace LinuxProgram.Base

/-- A code and its word. -/
structure Keyword where
  code : UInt8
  word : List UInt8
  deriving DecidableEq, Repr

/-- The string of a table. -/
def pack : List Keyword → List UInt8
  | [] => [0]
  | [e] => UInt8.ofNat (e.word.length + 2) :: e.code :: (e.word ++ [0])
  | e :: rest =>
    UInt8.ofNat (e.word.length + 3) :: e.code :: (e.word ++ 0 :: pack rest)

/-- The search for a word, through at most `fuel` entries. -/
def walk : (fuel : ℕ) → List UInt8 → List UInt8 → Option UInt8
  | 0, _, _ => none
  | fuel + 1, table, word =>
    if text (table.drop 2) = word then some (table.getD 1 0)
    else
      let table := table.drop (table.headD 0).toNat
      if table.headD 0 = 0 then none else walk fuel table word

/-- The words of a table can be told from what follows them, and no offset is too large for a
`char`. -/
def WellPacked (entries : List Keyword) : Prop :=
  ∀ e ∈ entries, 0 ∉ e.word ∧ e.word.length < 125

instance (entries : List Keyword) : Decidable (WellPacked entries) :=
  inferInstanceAs (Decidable (∀ e ∈ entries, _))

theorem toNat_offset {n : ℕ} (small : n < 256) : (UInt8.ofNat n).toNat = n := by
  rw [UInt8.toNat_ofNat', Nat.mod_eq_of_lt small]

/-- A table with an entry does not begin with a terminator. -/
theorem pack_headD {entries : List Keyword} (well : WellPacked entries)
    (some_entry : entries ≠ []) :
    (pack entries).headD 0 ≠ 0 := by
  have positive {n : ℕ} (some_byte : 0 < n) (small : n < 256) : UInt8.ofNat n ≠ 0 := by
    intro zero
    have := congrArg UInt8.toNat zero
    rw [toNat_offset small, UInt8.toNat_zero] at this
    omega
  match entries with
  | [] => exact absurd rfl some_entry
  | [e] =>
    have short := (well e (by simp)).2
    exact positive (by omega) (by omega)
  | e :: e' :: rest =>
    have short := (well e (by simp)).2
    exact positive (by omega) (by omega)

theorem walk_pack {entries : List Keyword} (well : WellPacked entries) (some_entry : entries ≠ [])
    (word : List UInt8) {fuel : ℕ} (enough : entries.length ≤ fuel) :
    walk fuel (pack entries) word = (entries.find? (·.word = word)).map Keyword.code := by
  induction entries generalizing fuel with
  | nil => exact absurd rfl some_entry
  | cons e rest ih =>
    obtain ⟨fuel, rfl⟩ : ∃ k, fuel = k + 1 := ⟨fuel - 1, by simp at enough; omega⟩
    obtain ⟨plain, short⟩ := well e (by simp)
    have well_rest : WellPacked rest := fun e' mem => well e' (List.mem_cons_of_mem _ mem)
    -- The last entry and the others differ in what follows the word.
    cases rest with
    | nil =>
      have next : (pack [e]).drop ((pack [e]).headD 0).toNat = [0] := by
        rw [pack, List.headD_cons, toNat_offset (by omega)]
        simp
      rw [walk, next]
      by_cases found : e.word = word
      · subst found
        simp [pack, text_append_zero plain]
      · simp [pack, text_append_zero plain, found]
    | cons e' rest =>
      have next : (pack (e :: e' :: rest)).drop ((pack (e :: e' :: rest)).headD 0).toNat =
          pack (e' :: rest) := by
        rw [pack, List.headD_cons, toNat_offset (by omega)]
        · simp
        · simp
      rw [walk, next]
      by_cases found : e.word = word
      · subst found
        simp [pack, text_append_zero plain]
      · have behind := pack_headD well_rest (by simp)
        have enough_rest : (e' :: rest).length ≤ fuel := by
          simp only [List.length_cons] at enough ⊢
          omega
        rw [if_neg behind, ih well_rest (by simp) enough_rest]
        simp [pack, text_append_zero plain, found]

end LinuxProgram.Base
