import LinuxProgram.Base.Memory

/-!
# Programs that edit memory in place

An `Editing` is a program whose only access to memory is byte by byte, through loads and stores
that it spells out. On a given memory it runs to a result and a memory (`Editing.run`), and it
leaves a record of the addresses it has read and written (`Editing.accesses`), also when it
faults: what a program does out of bounds is a fact about this record.

## Main results

* `Editing.run_bind`, `Editing.mem_accesses_bind` — a sequence, part by part
* `Memory.write_write_adjacent`, `Memory.holds_cons`, `Memory.Holds.string_unique` — adjacent
  stores, and the string that starts at an address
-/

namespace LinuxProgram.Base

/-! ### Adjacent stores and strings -/

namespace Memory

variable {m : Memory} {off : ℕ} {bs cs : List UInt8}

/-- Two adjacent stores are one. -/
theorem write_write_adjacent :
    (m.write off bs).write (off + bs.length) cs = m.write off (bs ++ cs) := by
  funext i
  rcases lt_or_ge i off with before | lower
  · rw [write_apply_of_lt (by omega), write_apply_of_lt before, write_apply_of_lt before]
  · obtain ⟨j, rfl⟩ := Nat.exists_eq_add_of_le lower
    simp only [write, Nat.le_add_right, if_true, Nat.add_le_add_iff_left,
      Nat.add_sub_add_left, Nat.add_sub_cancel_left, List.getElem?_append]
    rcases lt_or_ge j bs.length with first | second
    · rw [if_neg (by omega), if_pos first]
    · rw [if_pos second, if_neg (by omega), List.getElem?_eq_none second]
      rfl

theorem holds_cons {b : UInt8} : m.Holds off (b :: bs) ↔ m off = b ∧ m.Holds (off + 1) bs := by
  rw [← List.singleton_append, holds_append, List.length_singleton]
  exact and_congr_left fun _ => List.singleton_inj

/-- A memory holds one string at an address. -/
theorem Holds.string_unique (first : m.Holds off (bs ++ [0])) (second : m.Holds off (cs ++ [0]))
    (text₁ : 0 ∉ bs) (text₂ : 0 ∉ cs) : bs = cs := by
  -- The terminator of the shorter string would be a character of the longer one.
  have le {s t : List UInt8} (hs : m.Holds off (s ++ [0])) (ht : m.Holds off (t ++ [0]))
      (text : 0 ∉ s) : s.length ≤ t.length := by
    by_contra shorter
    have ends := ht.getElem (i := t.length) (by simp)
    have char := hs.getElem (i := t.length) (by simp; omega)
    rw [List.getElem_append_left (by omega)] at char
    rw [List.getElem_append_right (by omega), char] at ends
    exact text (by simpa [ends] using List.getElem_mem (l := s) (n := t.length) (by omega))
  have same : bs.length = cs.length := le_antisymm (le first second text₁) (le second first text₂)
  unfold Holds at first second
  rw [List.length_append, same, ← List.length_append, second] at first
  exact (List.append_cancel_right first).symm

end Memory

/-- A program that loads and stores single bytes. -/
inductive Editing (α : Type)
  | done (result : α)
  | fault
  | load (addr : ℕ) (next : UInt8 → Editing α)
  | store (addr : ℕ) (byte : UInt8) (next : Editing α)

/-- An access to memory. -/
inductive Access
  | read (addr : ℕ)
  | write (addr : ℕ)
  deriving DecidableEq, Repr

namespace Editing

variable {α β : Type}

/-- Go on with the result of a program, unless it faults. -/
def bind (f : α → Editing β) : Editing α → Editing β
  | done a => f a
  | fault => fault
  | load addr next => load addr fun byte => bind f (next byte)
  | store addr byte next => store addr byte (bind f next)

instance : Monad Editing where
  pure := done
  bind x f := bind f x

/-- The result and the memory that the program leaves, if it does not fault. -/
def run (m : Memory) : Editing α → Option (α × Memory)
  | done a => some (a, m)
  | fault => none
  | load addr next => run m (next (m addr))
  | store addr byte next => run (m.write addr [byte]) next

/-- What the program accesses, in order, up to its end or its fault. -/
def accesses (m : Memory) : Editing α → List Access
  | done _ => []
  | fault => []
  | load addr next => .read addr :: accesses m (next (m addr))
  | store addr byte next => .write addr :: accesses (m.write addr [byte]) next

section Rules

variable {m m' : Memory} {x : Editing α} {f : α → Editing β} {a : α} {t : Access}

@[simp] theorem run_pure : (pure a : Editing α).run m = some (a, m) := rfl

@[simp] theorem accesses_pure : (pure a : Editing α).accesses m = [] := rfl

theorem run_bind (first : x.run m = some (a, m')) : (x >>= f).run m = (f a).run m' := by
  induction x generalizing m with
  | done b =>
    obtain ⟨rfl, rfl⟩ := Prod.mk.inj (Option.some.inj first)
    rfl
  | fault => cases first
  | load addr next ih => exact ih _ first
  | store addr byte next ih => exact ih first

theorem run_bind_fault (first : x.run m = none) : (x >>= f).run m = none := by
  induction x generalizing m with
  | done b => cases first
  | fault => rfl
  | load addr next ih => exact ih _ first
  | store addr byte next ih => exact ih first

/-- A sequence accesses what its first part does, and then what its second part does. -/
theorem mem_accesses_bind (first : x.run m = some (a, m')) :
    t ∈ (x >>= f).accesses m ↔ t ∈ x.accesses m ∨ t ∈ (f a).accesses m' := by
  induction x generalizing m with
  | done b =>
    obtain ⟨rfl, rfl⟩ := Prod.mk.inj (Option.some.inj first)
    simp [Bind.bind, bind, accesses]
  | fault => cases first
  | load addr next ih =>
    have rest := ih _ first
    simp only [Bind.bind, bind, accesses, List.mem_cons] at rest ⊢
    rw [rest, or_assoc]
  | store addr byte next ih =>
    have rest := ih first
    simp only [Bind.bind, bind, accesses, List.mem_cons] at rest ⊢
    rw [rest, or_assoc]

/-- What the first part of a sequence accesses, the sequence does. -/
theorem mem_accesses_bind_left (early : t ∈ x.accesses m) : t ∈ (x >>= f).accesses m := by
  induction x generalizing m with
  | done b => cases early
  | fault => cases early
  | load addr next ih =>
    rcases List.mem_cons.mp early with rfl | later
    · exact List.mem_cons_self
    · exact List.mem_cons_of_mem _ (ih _ later)
  | store addr byte next ih =>
    rcases List.mem_cons.mp early with rfl | later
    · exact List.mem_cons_self
    · exact List.mem_cons_of_mem _ (ih later)

end Rules

end Editing

end LinuxProgram.Base
