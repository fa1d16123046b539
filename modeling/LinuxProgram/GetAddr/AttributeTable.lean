import LinuxProgram.GetAddr.Filters

/-!
# The attribute parser on arbitrary bytes

`nl_parse_rtattr` (in `getaddr.c`, and once more in `interface.c`) is given a table of `max + 1`
pointers by its caller, a buffer and a length, which may be negative. Here it is a program that
spells out its reads. The table has its own type of pointers and its own size, and a store outside
of it is a fault, just like a loop that does not end.

Nothing is assumed about the bytes. The length that is left may become negative after the last
attribute, whose padding need not be there; the next test then fails.

## Main definitions

* `nlParseRtattr` — the code
* `Parses` — what a call should do

## Main result

* `nlParseRtattr_parses` — it does so
-/

namespace LinuxProgram.GetAddr.AttributeTable

open Base Netlink

variable {ρ ε : Type} {max : ℕ}

/-! ### The code -/

/-- `tb[type] = rta;` -/
def storeRta (rta : ρ) (type : ℕ) (tb : Fin (max + 1) → ρ) : Reading Part ε (Fin (max + 1) → ρ) :=
  if inside : type < max + 1 then return Function.update tb ⟨type, inside⟩ rta else .fault

/-- `nl_parse_rtattr`, on the buffer at offset `rta`. The pointer to an offset is `ptr` of it. The
loop has at most `fuel` tests. -/
def nlParseRtattr (ptr : ℕ → ρ) (fuel : ℕ) (tb : Fin (max + 1) → ρ) (rta : ℕ) (len : ℤ) :
    Reading Part ε (Fin (max + 1) → ρ) := do
  let (_, tb) ← nlParseRtattrWith .attr (fun type rta tb => storeRta (ptr rta) type tb) fuel tb max
    rta len
  return tb

/-! ### One attribute -/

/-- The table with a pointer stored. -/
def entered (ptr : ℕ → ρ) (type rta : ℕ) (tb : Fin (max + 1) → ρ) : Fin (max + 1) → ρ :=
  fun t => if type = t then ptr rta else tb t

/-- A listed type is inside the table. -/
theorem storeRta_listed {tb : Fin (max + 1) → ρ} {type : ℕ} (listed : (type : ℤ) ≤ max)
    (ptr : ℕ → ρ) (rta : ℕ) :
    (storeRta (ptr rta) type tb : Reading Part ε _) = pure (entered ptr type rta tb) := by
  rw [storeRta, dif_pos (Nat.lt_succ_of_le (Int.ofNat_le.mp listed))]
  congr 1
  funext t
  rw [Function.update_apply]
  exact if_congr (Fin.ext_iff.trans eq_comm) rfl rfl

theorem stores_entered (m : Memory) (ptr : ℕ → ρ) :
    Stores m max (fun type rta tb => (storeRta (ptr rta) type tb : Reading Part ε _))
      (entered ptr : ℕ → ℕ → (Fin (max + 1) → ρ) → _) := by
  intro type rta tb listed
  dsimp only
  rw [storeRta_listed listed]
  rfl

/-- The table with an attribute filed. -/
def filed (m : Memory) (ptr : ℕ → ρ) (rta : ℕ) (tb : Fin (max + 1) → ρ) : Fin (max + 1) → ρ :=
  fun t => if rtaType m rta = t then ptr rta else tb t

/-- An attribute with another type is in no entry. -/
theorem filedWith_entered (m : Memory) (ptr : ℕ → ρ) (rta : ℕ) (tb : Fin (max + 1) → ρ) :
    filedWith (entered ptr) m max rta tb = filed m ptr rta tb := by
  rw [filedWith]
  split_ifs with listed
  · rfl
  · funext t
    exact (if_neg (by omega)).symm

/-! ### The table -/

section Table

variable {m : Memory} {ptr : ℕ → ρ} {tb : Fin (max + 1) → ρ} {rta : ℕ} {len : ℤ}

/-- The table that the loop leaves: for each type the last attribute, or the entry as it was. -/
theorem forEach_filed (range : len < 2 ^ 31) (t : Fin (max + 1)) :
    (Id.run ((rtaCursor m).forEach (fun c tb => pure (filed m ptr c.1 tb)) (rta, len) tb)).2 t =
      ((lastAttr m rta len.toNat t).map ptr).getD (tb t) := by
  generalize counted : len.toNat = room
  -- The loop and the list of attributes step alike.
  induction rta, room using attributes.induct (m := m) generalizing len tb with
  | case1 p room fits ih =>
    have lower := le_alignUp (rtaLen m p)
    rw [Cursor.forEach_step _ _ ((rtaCursor_ok rfl).mpr ⟨fits.1, by omega⟩),
      rtaCursor_next rfl range (by omega), lastAttr_cons rfl fits.1 fits.2]
    refine (ih (by omega) (by omega)).trans ?_
    cases lastAttr m (p + alignUp (rtaLen m p)) (room - alignUp (rtaLen m p)) t with
    | some later => rfl
    | none =>
      rw [Option.none_or]
      by_cases same : rtaType m p = t
      · rw [if_pos same]
        exact if_pos same
      · rw [if_neg same]
        exact if_neg same
  | case2 p room stop =>
    have ends : (rtaCursor m).ok (p, len) = false := by
      rw [← Bool.not_eq_true, rtaCursor_ok rfl]
      omega
    rw [Cursor.forEach_stop _ _ ends, lastAttr_nil stop]
    rfl

theorem run_nlParseRtattr {fuel : ℕ} (range : len < 2 ^ 31) (enough : len.toNat < fuel) :
    (nlParseRtattr ptr fuel tb rta len : Reading Part ε _).run m =
      some (.ok fun t => ((lastAttr m rta len.toNat t).map ptr).getD (tb t)) := by
  rw [nlParseRtattr, Reading.run_bind_ok (run_nlParseRtattrWith (stores_entered m ptr) enough),
    Reading.run_pure]
  simp only [filedWith_entered]
  congr 2
  funext t
  exact forEach_filed range t

end Table

/-! ### A call -/

/-- On the buffer at the start of the memory: the call ends without a fault, hence without a store
outside the table; it reads inside the first `len` bytes; it leaves for each type the last
attribute or the entry as it was; and every attribute lies inside the first `len` bytes. -/
structure Parses (ptr : ℕ → ρ) (m : Memory) (fuel : ℕ) (tb : Fin (max + 1) → ρ) (len : ℤ) :
    Prop where
  ends : ∃ tb', (nlParseRtattr ptr fuel tb 0 len : Reading Part Empty _).run m = some (.ok tb') ∧
    ∀ t : Fin (max + 1), (∀ rta, lastAttr m 0 len.toNat t = some rta → tb' t = ptr rta) ∧
      (lastAttr m 0 len.toNat t = none → tb' t = tb t)
  reads_inside : (nlParseRtattr ptr fuel tb 0 len : Reading Part Empty _).Safe
    (fun _ off n => (off : ℤ) + n ≤ len) m
  attributes_inside : ∀ rta ∈ attributes m 0 len.toNat, (rta : ℤ) + rtaLen m rta ≤ len

/-- `nl_parse_rtattr` parses any bytes, with any `int` for their number, into any table. The loop
makes at most one test for each byte and one more. -/
theorem nlParseRtattr_parses (ptr : ℕ → ρ) (m : Memory) {fuel : ℕ} (tb : Fin (max + 1) → ρ)
    {len : ℤ} (range : len < 2 ^ 31) (enough : len.toNat < fuel) :
    Parses ptr m fuel tb len := by
  refine ⟨⟨_, run_nlParseRtattr range enough, fun t => ⟨fun rta last => ?_, fun absent => ?_⟩⟩,
    ?_, fun rta mem => ?_⟩
  · rw [last]
    rfl
  · rw [absent]
    rfl
  · rw [nlParseRtattr, Reading.safe_bind]
    refine ⟨safe_nlParseRtattrWith (stores_entered m ptr) (fun type rta tb listed => ?_)
      (fun off n below => ?_) range enough, fun _ _ => trivial⟩
    · rw [storeRta_listed listed]
      trivial
    · simpa using below
  · obtain ⟨-, header, inside⟩ := attribute_inside mem
    omega

/-- Two attributes of type 1, the second without its padding. -/
def twoAttrs : Memory := Memory.write (fun _ => 0) 0 [6, 0, 1, 0, 7, 7, 0, 0, 5, 0, 1, 0, 9]

/-- The second is filed under type 1. The entry for type 0 stays. -/
theorem nlParseRtattr_parses_two :
    Parses some twoAttrs 14 (fun _ : Fin 2 => none) 13 ∧
      lastAttr twoAttrs 0 13 1 = some 8 ∧ lastAttr twoAttrs 0 13 0 = none := by
  refine ⟨nlParseRtattr_parses some twoAttrs _ (by decide) (by decide), ?_, ?_⟩
  · rw [lastAttr_cons (n := 6) rfl (by decide) (by decide),
      lastAttr_cons (n := 5) rfl (by decide) (by decide), lastAttr_nil (by decide)]
    rfl
  · rw [lastAttr_cons (n := 6) rfl (by decide) (by decide),
      lastAttr_cons (n := 5) rfl (by decide) (by decide), lastAttr_nil (by decide)]
    rfl

end LinuxProgram.GetAddr.AttributeTable
