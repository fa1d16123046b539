import LinuxProgram.Base.Reading
import LinuxProgram.Netlink.Macros
import Mathlib.Logic.Function.Basic

/-!
# The attribute parser

`nl_parse_rtattr` (in `getaddr.c`, and once more in `interface.c`) goes through the attributes
in a buffer and stores a pointer to each in a table, under its type. It is written here once, as
a program that spells out its reads (`nlParseRtattrWith`). The kind of the reads, the table and
the way in which an entry is stored are parameters: what a store outside the table does is for
the user of the program to say.

`nlParseRtattr` is the program on a table without bounds, as a function of the memory.

## Main results

* `run_nlParseRtattrWith` — the program runs like the loop of `rtaCursor`
* `safe_nlParseRtattrWith` — it reads inside the bytes that it is given
-/

namespace LinuxProgram.Netlink

open Base

section Program

variable {κ ε τ : Type} (kind : κ)

/-- `RTA_OK(rta, len)`. -/
def testRta (c : ℕ × ℤ) : Reading κ ε Bool :=
  if 4 ≤ c.2 then do
    let len ← .num kind c.1 2
    if 4 ≤ len then do
      let len ← .num kind c.1 2
      return decide ((len : ℤ) ≤ c.2)
    else return false
  else return false

/-- `RTA_NEXT(rta, len)`. -/
def nextRta (c : ℕ × ℤ) : Reading κ ε (ℕ × ℤ) := do
  let len ← .num kind c.1 2
  return (c.1 + alignU32 len, toInt32 ((toUInt32 c.2 : ℤ) - alignU32 len))

/-- `if (rta->rta_type <= max) tb[rta->rta_type] = rta;`, where `store` is the assignment. -/
def fileRta (store : ℕ → ℕ → τ → Reading κ ε τ) (max : ℤ) (c : ℕ × ℤ) (tb : τ) :
    Reading κ ε τ := do
  let type ← .num kind (c.1 + 2) 2
  if (type : ℤ) ≤ max then do
    let type ← .num kind (c.1 + 2) 2
    store type c.1 tb
  else return tb

/-- `nl_parse_rtattr` on the attributes at `rta`. The loop has at most `fuel` tests. The result is
where it stops, with the length that is left there, and the table. -/
def nlParseRtattrWith (store : ℕ → ℕ → τ → Reading κ ε τ) (fuel : ℕ) (tb : τ) (max : ℤ) (rta : ℕ)
    (len : ℤ) : Reading κ ε ((ℕ × ℤ) × τ) :=
  .loop (testRta kind) (nextRta kind) (fileRta kind store max) fuel (rta, len) tb

variable {kind} {m : Memory} {store : ℕ → ℕ → τ → Reading κ ε τ} {stored : ℕ → ℕ → τ → τ}
  {fuel : ℕ} {tb : τ} {max len : ℤ} {rta : ℕ}

theorem run_testRta (c : ℕ × ℤ) :
    (testRta kind c : Reading κ ε Bool).run m = some (.ok ((rtaCursor m).ok c)) := by
  change (testRta kind c : Reading κ ε Bool).run m = some (.ok (rtaOk m c.1 c.2))
  have len : leNat (m.read c.1 2) = rtaLen m c.1 := rfl
  simp only [testRta, rtaOk, Reading.run_ite, Reading.run_num_bind, Reading.run_pure, len]
  exact Reading.ok_ite_ite

theorem run_nextRta (c : ℕ × ℤ) :
    (nextRta kind c : Reading κ ε (ℕ × ℤ)).run m = some (.ok ((rtaCursor m).next c)) := rfl

/-- The assignment of a listed entry ends without a fault, as `stored` says. -/
def Stores (m : Memory) (max : ℤ) (store : ℕ → ℕ → τ → Reading κ ε τ) (stored : ℕ → ℕ → τ → τ) :
    Prop :=
  ∀ (type rta : ℕ) (tb : τ), (type : ℤ) ≤ max →
    (store type rta tb).run m = some (.ok (stored type rta tb))

/-- What one round does to the table. -/
def filedWith (stored : ℕ → ℕ → τ → τ) (m : Memory) (max : ℤ) (rta : ℕ) (tb : τ) : τ :=
  if (rtaType m rta : ℤ) ≤ max then stored (rtaType m rta) rta tb else tb

theorem run_fileRta (stores : Stores m max store stored) (c : ℕ × ℤ) (tb : τ) :
    (fileRta kind store max c tb).run m = some (.ok (filedWith stored m max c.1 tb)) := by
  have type : leNat (m.read (c.1 + 2) 2) = rtaType m c.1 := rfl
  simp only [fileRta, filedWith, Reading.run_ite, Reading.run_num_bind, type]
  split_ifs with listed
  · exact stores _ _ _ listed
  · rfl

/-- The program runs like the loop, if there is a test for each byte and one more. -/
theorem run_nlParseRtattrWith (stores : Stores m max store stored) (enough : len.toNat < fuel) :
    (nlParseRtattrWith kind store fuel tb max rta len).run m = some (.ok (Id.run
      ((rtaCursor m).forEach (fun c tb => pure (filedWith stored m max c.1 tb)) (rta, len)
        tb))) := by
  have looped : (nlParseRtattrWith kind store fuel tb max rta len).run m =
      some ((rtaCursor m).forEach (fun c tb => pure (filedWith stored m max c.1 tb)) (rta, len)
        tb) :=
    Reading.run_loop run_testRta (fun c _ => run_nextRta c)
      (fun c tb _ => run_fileRta stores c tb) enough
  rw [looped, Cursor.forEach_pure]
  rfl

/-- The program reads headers of the attributes that it is given. -/
theorem safe_nlParseRtattrWith {allowed : κ → ℕ → ℕ → Prop}
    (stores : Stores m max store stored)
    (safe : ∀ (type rta : ℕ) (tb : τ), (type : ℤ) ≤ max → (store type rta tb).Safe allowed m)
    (inside : ∀ off n : ℕ, (off : ℤ) + n ≤ rta + len → allowed kind off n)
    (range : len < 2 ^ 31) (enough : len.toNat < fuel) :
    (nlParseRtattrWith kind store fuel tb max rta len).Safe allowed m := by
  -- What is left counts from the position to the end of the attributes.
  refine Reading.safe_loop (fun c _ => (c.1 : ℤ) + c.2 = rta + len ∧ rta ≤ c.1) run_testRta
    (fun c _ => run_nextRta c) (fun c tb _ => run_fileRta stores c tb) ?_ ?_ enough
    ⟨rfl, Nat.le_refl rta⟩
  · rintro c _ ⟨counts, -⟩
    simp only [testRta, Reading.safe_ite, Reading.safe_num_bind, Reading.safe_pure]
    split_ifs with positive
    · have may := inside c.1 2 (by omega)
      exact ⟨may, may, trivial⟩
    · have may := inside c.1 2 (by omega)
      exact ⟨may, trivial⟩
  · rintro c tb ⟨counts, behind⟩ ok
    obtain ⟨header, fits⟩ := (rtaCursor_ok rfl).mp ok
    refine ⟨?_, fun tb' _ => ⟨⟨inside c.1 2 (by omega), trivial⟩, ?_⟩⟩
    · have may := inside (c.1 + 2) 2 (by push_cast; omega)
      simp only [fileRta, Reading.safe_ite, Reading.safe_num_bind]
      refine ⟨may, ?_⟩
      split_ifs with listed
      · exact ⟨may, safe _ _ _ listed⟩
      · trivial
    · rw [rtaCursor_next rfl (by omega) fits]
      dsimp only
      omega

end Program

/-! ### A table without bounds -/

/-- A table of attributes by type: `tb[t]`, with `none` for a null pointer. -/
abbrev AttrTable := ℕ → Option ℕ

/-- The assignment to such a table. -/
def storeAttr {κ ε : Type} (type rta : ℕ) (tb : AttrTable) : Reading κ ε AttrTable :=
  return Function.update tb type (some rta)

/-- The body of the parsing loop: file an attribute under its type. -/
def fileAttr (m : Memory) (max : ℤ) (rta : ℕ) (tb : AttrTable) : AttrTable :=
  filedWith (fun type rta tb => Function.update tb type (some rta)) m max rta tb

/-- `nl_parse_rtattr` as a function of the memory. Returns where the loop stops, with the length
that is left there, and the table. -/
def nlParseRtattr (m : Memory) (tb : AttrTable) (max : ℤ) (rta : ℕ) (len : ℤ) :
    (ℕ × ℤ) × AttrTable :=
  match (nlParseRtattrWith () storeAttr (len.toNat + 1) tb max rta len :
      Reading Unit Empty _).run m with
  | some (.ok r) => r
  -- The program neither faults nor returns early (`nlParseRtattr_eq`).
  | _ => ((rta, len), tb)

section Function

variable {m : Memory} {tb : AttrTable} {max len : ℤ} {rta : ℕ}

theorem stores_storeAttr {κ ε : Type} : Stores m max (storeAttr : _ → _ → _ → Reading κ ε _)
    fun type rta tb => Function.update tb type (some rta) :=
  fun _ _ _ _ => rfl

theorem fileAttr_eq : fileAttr m max rta tb =
    if (rtaType m rta : ℤ) ≤ max then Function.update tb (rtaType m rta) (some rta) else tb := rfl

theorem nlParseRtattr_eq : nlParseRtattr m tb max rta len =
    Id.run ((rtaCursor m).forEach (fun c tb => pure (fileAttr m max c.1 tb)) (rta, len) tb) := by
  rw [nlParseRtattr, run_nlParseRtattrWith stores_storeAttr (Nat.lt_succ_self _)]
  rfl

/-- The program on a table without bounds, whatever its reads are meant for. -/
theorem run_nlParseRtattrWith_storeAttr {κ ε : Type} {kind : κ} :
    (nlParseRtattrWith kind storeAttr (len.toNat + 1) tb max rta len : Reading κ ε _).run m =
      some (.ok (nlParseRtattr m tb max rta len)) := by
  rw [run_nlParseRtattrWith stores_storeAttr (Nat.lt_succ_self _), nlParseRtattr_eq]
  rfl

theorem nlParseRtattr_stop (test : (rtaCursor m).ok (rta, len) = false) :
    nlParseRtattr m tb max rta len = ((rta, len), tb) := by
  rw [nlParseRtattr_eq, Cursor.forEach_stop _ _ test]
  rfl

/-- One round of the parser on an attribute of known size. -/
theorem nlParseRtattr_step {n : ℕ} (size : rtaLen m rta = n) (header : 4 ≤ n)
    (fits : (n : ℤ) ≤ len) (range : len < 2 ^ 31) :
    nlParseRtattr m tb max rta len =
      nlParseRtattr m (fileAttr m max rta tb) max (rta + alignUp n) (len - alignUp n) := by
  rw [nlParseRtattr_eq, Cursor.forEach_step _ _ ((rtaCursor_ok size).mpr ⟨header, fits⟩),
    rtaCursor_next size range fits, nlParseRtattr_eq]
  rfl

end Function

end LinuxProgram.Netlink
