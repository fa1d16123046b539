import LinuxProgram.Base.Files
import LinuxProgram.Base.Systems
import LinuxProgram.Base.Text
import Mathlib.Logic.Function.Basic

/-!
# Parent and child that write through one description

`process/fork_onfile/fork.c` opens a file and forks; then parent and child write a
thousand lines each. The descriptor is inherited, so both write through one open file
description: its offset moves with every write of either process.

The writes of the two processes come in any order. `write` may store fewer bytes than
it is given, or none; the program does not look at its result.

## Main definitions

* `Machine`, `Write`, `writers` — the file, the shared offset and the two loops

## Main results

* `file_of_steps` — the file holds the pieces that the writes stored, in their order
* `no_line_lost` — if every write stores its line, the file begins with the lines of
  the processes that wrote, in the order in which they did, a thousand of each
-/

namespace LinuxProgram.Process.ForkOnFile

open Base

/-- The two processes. -/
inductive Writer
  | child | parent
  deriving DecidableEq, Repr

/-- The text of `buf1`. -/
def line1 : List UInt8 :=
  ascii "11111111111111111process1, this working proces1, sprocess1, " ++
    ascii "this working process111111111111111111111111\r\n"

/-- The text of `buf2`. -/
def line2 : List UInt8 :=
  ascii "22222222222222222process2, this working proces2, sprocess2, " ++
    ascii "this working process222222222222222222222222\r\n"

/-- What a process writes in every round. -/
def line : Writer → List UInt8
  | .child => line1
  | .parent => line2

/-- The file, the open file description and the loops. -/
structure Machine where
  file : List UInt8
  /-- The offset of the description that both processes write through. -/
  off : ℕ
  /-- How many rounds a process has left. -/
  left : Writer → ℕ

/-- A call of `write`: who calls, and how many bytes are stored. -/
structure Write where
  writer : Writer
  count : ℕ

/-- The bytes that a write stores. -/
def Write.piece (w : Write) : List UInt8 := (line w.writer).take w.count

/-- The state after a write. -/
def Machine.write (m : Machine) (w : Write) : Machine where
  file := pwrite m.file m.off w.piece
  off := m.off + w.count
  left := Function.update m.left w.writer (m.left w.writer - 1)

/-- The state when `fork` has returned in both processes. `open` does not truncate the file. -/
def Machine.start (file : List UInt8) : Machine where
  file := file
  off := 0
  left _ := 1000

/-- The two processes as a transition system. -/
def writers (file : List UInt8) : System Machine Write where
  init m := m = .start file
  step m w t := 0 < m.left w.writer ∧ w.count ≤ (line w.writer).length ∧ t = m.write w

variable {file : List UInt8} {m t : Machine} {run : List Write}

theorem Machine.write_left (m : Machine) (w : Write) :
    (m.write w).left = Function.update m.left w.writer (m.left w.writer - 1) := rfl

theorem Write.piece_length {w : Write} (fits : w.count ≤ (line w.writer).length) :
    w.piece.length = w.count :=
  List.length_take_of_le fits

/-- Nothing that either process has stored is overwritten. -/
theorem file_of_steps (steps : (writers file).Steps (.start file) run t) :
    t.file = pwrite file 0 (run.flatMap Write.piece) ∧
      t.off = (run.flatMap Write.piece).length := by
  induction steps with
  | refl => exact ⟨rfl, rfl⟩
  | @tail run w m t _ last ih =>
    obtain ⟨-, fits, rfl⟩ := last
    obtain ⟨held, off⟩ := ih
    have whole : (run ++ [w]).flatMap Write.piece = run.flatMap Write.piece ++ w.piece := by simp
    rw [whole]
    constructor
    · -- The write begins where the pieces before it end.
      rw [Machine.write, held, off, ← pwrite_pwrite (Nat.zero_le _), Nat.zero_add]
    · rw [Machine.write, off, List.length_append, Write.piece_length fits]

/-- Rounds left and rounds taken add up. -/
theorem count_of_steps (steps : (writers file).Steps (.start file) run t) (w : Writer) :
    t.left w + (run.map Write.writer).count w = 1000 := by
  induction steps with
  | refl => rfl
  | @tail run e m t _ last ih =>
    obtain ⟨more, -, rfl⟩ := last
    rw [List.map_append, List.count_append, List.map_singleton, Machine.write_left]
    by_cases same : e.writer = w
    · subst same
      rw [Function.update_self, List.count_singleton_self]
      omega
    · rw [Function.update_of_ne (Ne.symm same), List.count_singleton, if_neg (by simpa using same)]
      omega

/-- When both loops have ended and no write was cut short, either process has written a thousand
times, and the file begins with their lines in the order of the writes. -/
theorem no_line_lost (steps : (writers file).Steps (.start file) run t)
    (ended : ∀ w, t.left w = 0) (whole : ∀ w ∈ run, w.count = (line w.writer).length) :
    (∀ w, (run.map Write.writer).count w = 1000) ∧
      t.file = (run.map Write.writer).flatMap line ++
        file.drop ((run.map Write.writer).flatMap line).length := by
  have pieces : run.flatMap Write.piece = (run.map Write.writer).flatMap line := by
    rw [List.flatMap_map]
    apply List.flatMap_congr
    intro w mem
    rw [Write.piece, whole w mem, List.take_length]
  constructor
  · intro w
    have := count_of_steps steps w
    have := ended w
    omega
  · rw [(file_of_steps steps).1, pieces, pwrite_of_le (Nat.zero_le _)]
    simp

/-- A process can take all its rounds in a row. -/
theorem rounds_in_a_row (file : List UInt8) (m : Machine) (w : Writer) (n : ℕ)
    (enough : n ≤ m.left w) :
    ∃ t, (writers file).Steps m (List.replicate n ⟨w, (line w).length⟩) t ∧
      t.left = Function.update m.left w (m.left w - n) := by
  induction n with
  | zero => exact ⟨m, .refl, by simp⟩
  | succ n ih =>
    obtain ⟨t, steps, left⟩ := ih (by omega)
    refine ⟨t.write ⟨w, (line w).length⟩, ?_, ?_⟩
    · rw [List.replicate_succ']
      refine .tail steps ⟨?_, Nat.le_refl _, rfl⟩
      rw [left, Function.update_self]
      omega
    · rw [Machine.write_left, left, Function.update_self, Function.update_idem, Nat.sub_sub]

theorem no_line_lost_child_first : ∃ t, (writers []).Steps (.start [])
    (List.replicate 1000 ⟨.child, line1.length⟩ ++ List.replicate 1000 ⟨.parent, line2.length⟩) t ∧
    t.file = (List.replicate 1000 line1 ++ List.replicate 1000 line2).flatten := by
  obtain ⟨m, first, left⟩ := rounds_in_a_row [] (.start []) .child 1000 (Nat.le_refl _)
  obtain ⟨t, second, left'⟩ := rounds_in_a_row [] m .parent 1000 (by rw [left]; decide)
  refine ⟨t, first.trans second, ?_⟩
  have file := (no_line_lost (first.trans second) ?_ ?_).2
  · rw [file, List.drop_nil, List.append_nil, List.map_append, List.map_replicate,
      List.map_replicate, List.flatMap_def, List.map_append, List.map_replicate,
      List.map_replicate]
    rfl
  · rintro (_ | _)
    · rw [left', Function.update_of_ne (by decide), left]
      rfl
    · rw [left', Function.update_self, left]
      rfl
  · intro w mem
    obtain mem | mem := List.mem_append.mp mem <;> rw [List.eq_of_mem_replicate mem]

end LinuxProgram.Process.ForkOnFile
