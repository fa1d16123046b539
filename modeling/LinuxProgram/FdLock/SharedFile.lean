import LinuxProgram.Base.Files
import LinuxProgram.Base.Systems
import LinuxProgram.Base.Text
import Mathlib.Data.Finset.Lattice.Fold
import Mathlib.Data.Fintype.Basic
import Mathlib.Logic.Function.Basic

/-!
# Processes that lock and write one file

`fd_lock/fd_lock.c` is a command loop: it opens `./test.txt` and then locks, unlocks,
reads, writes or closes it, as the words on its standard input say. Any number of
processes run it at the same time, each with an open file description, and so an
offset, of its own. The kernel keeps the contents of the file and the `flock` locks.

A process whose input has ended finds its last word in `buf` again, and repeats it.
`fd` is positive once `open_file` has returned, and no function sets it again: after
`file_close` the tests `fd > 0` still succeed, and the system calls fail with `EBADF`.
`write` is taken to store all ten bytes. `flock` may be refused for any reason.

How often a process has moved over a record, by reading or by writing it, is part of
the state.

## Main definitions

* `command` — the words and what they are taken for
* `Machine`, `Event`, `processes` — the file, the processes and their rounds
* `withoutLocks` — the same program with the calls of `flock` taken out

## Main results

* `file_of_reachable` — a file of whole records is as long as the furthest process has
  come: records of different processes overwrite each other
* `prints_unterminated` — on such a file every read and write that succeeds prints an
  array that has no terminator
* `locks_are_void` — the locks never make a difference, whatever the file holds
-/

namespace LinuxProgram.FdLock

open Base

/-- `buf` of `file_writ`. The ten bytes leave no room for a terminator. -/
def record : List UInt8 := ascii "123456789\n"

theorem record_length : record.length = 10 := rfl

/-- The functions that the words select. -/
inductive Command
  | lock | unlock | read | writ | close | exit
  deriving DecidableEq, Repr

/-- What `main` takes the word in `buf` for. -/
def command (buf : List UInt8) : Option Command :=
  if strncmp buf (ascii "lock") 4 = 0 then some .lock
  else if strncmp buf (ascii "unlock") 6 = 0 then some .unlock
  else if strncmp buf (ascii "read") 4 = 0 then some .read
  else if strncmp buf (ascii "writ") 4 = 0 then some .writ
  -- Four bytes are compared here as well.
  else if strncmp buf (ascii "close") 4 = 0 then some .close
  else if strncmp buf (ascii "exit") 4 = 0 then some .exit
  else none

/-- The modes of `flock`. -/
inductive Mode
  | shared | exclusive
  deriving DecidableEq, Repr

/-- What a call of `printf` puts out. -/
inductive Printed
  | text (bytes : List UInt8)
  /-- A `%s` whose array has no terminator: after these bytes, whatever stands behind it. -/
  | unterminated (bytes : List UInt8)
  deriving DecidableEq, Repr

def Printed.isUnterminated : Printed → Bool
  | .text _ => false
  | .unterminated _ => true

/-- `printf` of a format with one `%s` at the end of a line. -/
def printArray (before buf : List UInt8) : Printed :=
  if 0 ∈ buf then .text (before ++ text buf ++ ascii "\r\n") else .unterminated (before ++ buf)

/-- One process. -/
structure Proc where
  /-- `buf` of `main`. -/
  buf : List UInt8
  /-- The offset of the open file description behind `fd`, while there is one. -/
  pos : Option ℕ
  /-- The lock that this description has on the file. -/
  lock : Option Mode
  running : Bool
  printed : List Printed
  /-- How often the process has read or written a record. -/
  moves : ℕ

namespace Proc

def print (p : Proc) (line : Printed) : Proc := { p with printed := p.printed ++ [line] }

/-- What `flock` fails with: a descriptor that is not open is refused in any case. -/
def flockError (p : Proc) (refused : Option (List UInt8)) : Option (List UInt8) :=
  match p.pos with
  | none => some (ascii "Bad file descriptor")
  | some _ => refused

/-- `file_lock`, when `flock(fd, LOCK_SH)` returns. -/
def fileLock (p : Proc) (refused : Option (List UInt8)) : Proc :=
  match p.flockError refused with
  | some reason => p.print (.text (ascii "lock failed: " ++ reason ++ ascii "\r\n"))
  | none => { p with lock := some .shared }.print (.text (ascii "lock success\r\n"))

/-- `file_unlock`. A call that fails is reported, and then reported as a success. -/
def fileUnlock (p : Proc) (refused : Option (List UInt8)) : Proc :=
  match p.flockError refused with
  | some _ =>
    (p.print (.text (ascii "unlock failed\r\n"))).print (.text (ascii "unlock success\r\n"))
  | none => { p with lock := none }.print (.text (ascii "unlock success\r\n"))

/-- `file_read`. The array `buf` is not initialised: it starts out as `stack`. -/
def fileRead (p : Proc) (file stack : List UInt8) : Proc :=
  match p.pos with
  | none => p.print (.text (ascii "read byte failed:-1\r\n"))
  | some off =>
    let data := pread file off 10
    if data.length > 0 then
      { p with pos := some (off + data.length), moves := p.moves + 1 }.print
        (printArray (ascii "read byte:") (data ++ (stack.take 10).drop data.length))
    else p.print (.text (ascii "read byte failed:0\r\n"))

/-- `file_writ`, and the file it leaves. -/
def fileWrit (p : Proc) (file : List UInt8) : Proc × List UInt8 :=
  match p.pos with
  | none => (p.print (.text (ascii "write byte failed:-1\r\n")), file)
  | some off =>
    ({ p with pos := some (off + record.length), moves := p.moves + 1 }.print
      (printArray (ascii "write byte:10, ") record), pwrite file off record)

/-- `close(fd)`. The lock of the description goes with it. -/
def close (p : Proc) : Proc :=
  match p.pos with
  | none => p.print (.text (ascii "close failed\r\n"))
  | some _ => { p with pos := none, lock := none }

/-- `file_close`, which writes a record first. -/
def fileClose (p : Proc) (file : List UInt8) : Proc × List UInt8 :=
  let (p, file) := p.fileWrit file
  ((p.print (.text (ascii "close file\r\n"))).close, file)

/-- `exit(0)`: the kernel closes what is open. -/
def exit (p : Proc) : Proc := { p with pos := none, lock := none, running := false }

/-- `scanf("%s", buf)`. At the end of the input nothing is stored. -/
def scan (p : Proc) (word : Option (List UInt8)) : Proc :=
  match word with
  | none => p
  | some word => { p with buf := word }

/-- The command in `buf`, carried out on the file. -/
def perform (p : Proc) (file stack : List UInt8) (refused : Option (List UInt8)) :
    Proc × List UInt8 :=
  match command p.buf with
  | some .lock => (p.fileLock refused, file)
  | some .unlock => (p.fileUnlock refused, file)
  | some .read => (p.fileRead file stack, file)
  | some .writ => p.fileWrit file
  | some .close => p.fileClose file
  | some .exit => (p.exit, file)
  | none => (p, file)

/-- The command in `buf` in a program that does not lock. -/
def performUnlocked (p : Proc) (file stack : List UInt8) : Proc × List UInt8 :=
  match command p.buf with
  | some .lock | some .unlock => (p, file)
  | _ => p.perform file stack none

end Proc

/-- The file and the processes. -/
structure Machine (ι : Type*) where
  file : List UInt8
  procs : ι → Proc

/-- One round of the loop of a process. -/
structure Event (ι : Type*) where
  proc : ι
  /-- The word that `scanf` stores, if there is one. -/
  word : Option (List UInt8)
  /-- What the array of `file_read` holds before the call. -/
  stack : List UInt8
  /-- Why `flock` is refused, if it is: the text of the error. -/
  refused : Option (List UInt8)

/-- A word that `buf` has room for, and an array of ten bytes. -/
def Event.Fits {ι : Type*} (e : Event ι) : Prop :=
  (∀ word ∈ e.word, word.length < 128) ∧ e.stack.length = 10

section Model

variable {ι : Type*} [DecidableEq ι]

/-- The process of the event, when it has read its word. -/
def Machine.caller (m : Machine ι) (e : Event ι) : Proc := (m.procs e.proc).scan e.word

/-- What a process and the file have become. -/
def Machine.set (m : Machine ι) (i : ι) (result : Proc × List UInt8) : Machine ι :=
  { file := result.2, procs := Function.update m.procs i result.1 }

/-- A round of the loop. -/
def Machine.next (m : Machine ι) (e : Event ι) : Machine ι :=
  m.set e.proc ((m.caller e).perform m.file e.stack e.refused)

/-- A round of the loop in a program that does not lock. -/
def Machine.nextUnlocked (m : Machine ι) (e : Event ι) : Machine ι :=
  m.set e.proc ((m.caller e).performUnlocked m.file e.stack)

/-- `flock(fd, LOCK_SH)` waits while another process has the file locked exclusively. -/
def Machine.Waits (m : Machine ι) (e : Event ι) : Prop :=
  command (m.caller e).buf = some .lock ∧ (m.caller e).pos.isSome ∧
    ∃ j ≠ e.proc, (m.procs j).lock = some .exclusive

/-- Processes that have just opened the file. -/
def Machine.Start (file : List UInt8) (m : Machine ι) : Prop :=
  m.file = file ∧ ∀ i, (m.procs i).pos = some 0 ∧ (m.procs i).lock = none ∧
    (m.procs i).printed = [] ∧ (m.procs i).moves = 0

/-- The processes as a transition system. -/
def processes (file : List UInt8) : System (Machine ι) (Event ι) where
  init := Machine.Start file
  step m e t := (m.procs e.proc).running ∧ e.Fits ∧ ¬ m.Waits e ∧ t = m.next e

end Model

/-! ### What a command does -/

section Commands

variable (p : Proc) (file stack : List UInt8)

/-- How many arrays without a terminator a process has printed. -/
def Proc.unterminated (p : Proc) : ℕ := p.printed.countP (·.isUnterminated)

@[simp] theorem Proc.unterminated_print_text (p : Proc) (bytes : List UInt8) :
    (p.print (.text bytes)).unterminated = p.unterminated := by
  simp [Proc.unterminated, Proc.print, Printed.isUnterminated]

@[simp] theorem Proc.print_pos (p : Proc) (line : Printed) : (p.print line).pos = p.pos := rfl

@[simp] theorem Proc.print_moves (p : Proc) (line : Printed) : (p.print line).moves = p.moves := rfl

@[simp] theorem Proc.print_lock (p : Proc) (line : Printed) : (p.print line).lock = p.lock := rfl

/-- A command leaves file and record count alone, reads, or writes. -/
inductive Proc.Effect (p : Proc) (file stack : List UInt8) : Proc × List UInt8 → Prop
  | quiet {p' : Proc} (moves : p'.moves = p.moves) (pos : p'.pos = p.pos ∨ p'.pos = none)
      (printed : p'.unterminated = p.unterminated) : Effect p file stack (p', file)
  | read {p' : Proc} {off : ℕ} (opened : p.pos = some off) (some_data : pread file off 10 ≠ [])
      (moves : p'.moves = p.moves + 1) (pos : p'.pos = some (off + (pread file off 10).length))
      (printed : p'.printed = p.printed ++ [printArray (ascii "read byte:")
        (pread file off 10 ++ (stack.take 10).drop (pread file off 10).length)]) :
      Effect p file stack (p', file)
  | write {p' : Proc} {off : ℕ} (opened : p.pos = some off) (moves : p'.moves = p.moves + 1)
      (pos : p'.pos = some (off + record.length) ∨ p'.pos = none)
      (printed : p'.unterminated = p.unterminated + 1) :
      Effect p file stack (p', pwrite file off record)

theorem printArray_record (before : List UInt8) :
    printArray before record = .unterminated (before ++ record) := by
  rw [printArray, if_neg (by decide)]

theorem Proc.unterminated_print_record (p : Proc) (before : List UInt8) :
    (p.print (printArray before record)).unterminated = p.unterminated + 1 := by
  simp [printArray_record, Proc.unterminated, Proc.print, Printed.isUnterminated]

theorem Proc.fileWrit_effect : p.Effect file stack (p.fileWrit file) := by
  unfold Proc.fileWrit
  cases opened : p.pos with
  | none => exact .quiet rfl (.inl rfl) (Proc.unterminated_print_text _ _)
  | some off => exact .write opened rfl (.inl rfl) (Proc.unterminated_print_record _ _)

theorem Proc.close_spec (p : Proc) : p.close.moves = p.moves ∧ p.close.pos = none ∧
    p.close.unterminated = p.unterminated := by
  unfold Proc.close
  cases opened : p.pos with
  | none => exact ⟨rfl, opened, Proc.unterminated_print_text _ _⟩
  | some off => exact ⟨rfl, rfl, rfl⟩

theorem Proc.fileClose_effect : p.Effect file stack (p.fileClose file) := by
  unfold Proc.fileClose Proc.fileWrit
  cases opened : p.pos with
  | none =>
    obtain ⟨moves, pos, printed⟩ := ((p.print (.text (ascii "write byte failed:-1\r\n"))).print
      (.text (ascii "close file\r\n"))).close_spec
    exact .quiet moves (.inr pos) (by simpa using printed)
  | some off =>
    obtain ⟨moves, pos, printed⟩ :=
      (({ p with pos := some (off + record.length), moves := p.moves + 1 }.print
        (printArray (ascii "write byte:10, ") record)).print
        (.text (ascii "close file\r\n"))).close_spec
    refine .write opened moves (.inr pos) ?_
    rw [printed, Proc.unterminated_print_text, Proc.unterminated_print_record]
    rfl

theorem Proc.fileRead_effect : p.Effect file stack (p.fileRead file stack, file) := by
  unfold Proc.fileRead
  cases opened : p.pos with
  | none => exact .quiet rfl (.inl rfl) (Proc.unterminated_print_text _ _)
  | some off =>
    dsimp only
    by_cases some_data : (pread file off 10).length > 0
    · rw [if_pos some_data]
      exact .read opened (List.ne_nil_of_length_pos some_data) rfl rfl rfl
    · rw [if_neg some_data]
      exact .quiet rfl (.inl rfl) (Proc.unterminated_print_text _ _)

theorem Proc.fileLock_quiet (refused : Option (List UInt8)) :
    (p.fileLock refused).moves = p.moves ∧ (p.fileLock refused).pos = p.pos ∧
      (p.fileLock refused).unterminated = p.unterminated := by
  unfold Proc.fileLock
  cases p.flockError refused with
  | none => exact ⟨rfl, rfl, Proc.unterminated_print_text _ _⟩
  | some reason => exact ⟨rfl, rfl, Proc.unterminated_print_text _ _⟩

theorem Proc.fileUnlock_quiet (refused : Option (List UInt8)) :
    (p.fileUnlock refused).moves = p.moves ∧ (p.fileUnlock refused).pos = p.pos ∧
      (p.fileUnlock refused).unterminated = p.unterminated := by
  unfold Proc.fileUnlock
  cases p.flockError refused with
  | none => exact ⟨rfl, rfl, Proc.unterminated_print_text _ _⟩
  | some reason =>
    refine ⟨rfl, rfl, ?_⟩
    rw [Proc.unterminated_print_text, Proc.unterminated_print_text]

theorem Proc.perform_effect (refused : Option (List UInt8)) :
    p.Effect file stack (p.perform file stack refused) := by
  unfold Proc.perform
  cases command p.buf with
  | none => exact .quiet rfl (.inl rfl) rfl
  | some c =>
    cases c with
    | lock =>
      obtain ⟨moves, pos, printed⟩ := p.fileLock_quiet refused
      exact .quiet moves (.inl pos) printed
    | unlock =>
      obtain ⟨moves, pos, printed⟩ := p.fileUnlock_quiet refused
      exact .quiet moves (.inl pos) printed
    | read => exact p.fileRead_effect file stack
    | writ => exact p.fileWrit_effect file stack
    | close => exact p.fileClose_effect file stack
    | exit => exact .quiet rfl (.inr rfl) rfl

@[simp] theorem Proc.scan_pos (p : Proc) (word : Option (List UInt8)) :
    (p.scan word).pos = p.pos := by
  cases word <;> rfl

@[simp] theorem Proc.scan_moves (p : Proc) (word : Option (List UInt8)) :
    (p.scan word).moves = p.moves := by
  cases word <;> rfl

@[simp] theorem Proc.scan_lock (p : Proc) (word : Option (List UInt8)) :
    (p.scan word).lock = p.lock := by
  cases word <;> rfl

@[simp] theorem Proc.scan_printed (p : Proc) (word : Option (List UInt8)) :
    (p.scan word).printed = p.printed := by
  cases word <;> rfl

end Commands

/-! ### The file -/

section Safety

variable {ι : Type*} [DecidableEq ι] {n : ℕ} {m t : Machine ι}

/-- File, offsets and output belong together. -/
structure Inv (n : ℕ) (m : Machine ι) : Prop where
  file : ∃ k, m.file = records record k ∧ n ≤ k ∧ (∀ i, (m.procs i).moves ≤ k) ∧
    (k = n ∨ ∃ i, (m.procs i).moves = k)
  pos : ∀ i off, (m.procs i).pos = some off → off = (m.procs i).moves * record.length
  printed : ∀ i, (m.procs i).unterminated = (m.procs i).moves

omit [DecidableEq ι] in
theorem inv_start (start : m.Start (records record n)) : Inv n m where
  file := ⟨n, start.1, Nat.le_refl n,
    fun i => (start.2 i).2.2.2.trans_le (Nat.zero_le n), .inl rfl⟩
  pos i off opened := by
    obtain ⟨pos, -, -, moves⟩ := start.2 i
    rw [pos] at opened
    rw [moves, Nat.zero_mul, Option.some.inj opened]
  printed i := by
    obtain ⟨-, -, printed, moves⟩ := start.2 i
    rw [Proc.unterminated, printed, moves]
    rfl

/-- A process that does its part leaves the parts of the others as they are. -/
theorem Inv.set (inv : Inv n m) {i : ι} {p : Proc} {k : ℕ} (least : n ≤ k)
    (others : ∀ j, (m.procs j).moves ≤ k) (own : p.moves ≤ k)
    (attained : k = n ∨ k = p.moves ∨ ∃ j ≠ i, (m.procs j).moves = k)
    (pos : ∀ off, p.pos = some off → off = p.moves * record.length)
    (printed : p.unterminated = p.moves) : Inv n (m.set i (p, records record k)) where
  file := by
    refine ⟨k, rfl, least, ?_, ?_⟩
    · rw [Machine.set, Function.forall_update_iff m.procs fun _ q => q.moves ≤ k]
      exact ⟨own, fun j _ => others j⟩
    · rw [Machine.set, Function.exists_update_iff m.procs fun _ q => q.moves = k]
      exact attained.imp_right fun reached => reached.imp_left Eq.symm
  pos := by
    rw [Machine.set, Function.forall_update_iff m.procs fun _ q =>
      ∀ off, q.pos = some off → off = q.moves * record.length]
    exact ⟨pos, fun j _ => inv.pos j⟩
  printed := by
    rw [Machine.set, Function.forall_update_iff m.procs fun _ q => q.unterminated = q.moves]
    exact ⟨printed, fun j _ => inv.printed j⟩

/-- A round of any process keeps the invariant. -/
theorem Inv.next (inv : Inv n m) (e : Event ι) : Inv n (m.next e) := by
  obtain ⟨k, file, least, others, attained⟩ := inv.file
  have own := others e.proc
  have pos : ∀ off, (m.caller e).pos = some off → off = (m.procs e.proc).moves * record.length := by
    simpa [Machine.caller] using inv.pos e.proc
  have moves : (m.caller e).moves = (m.procs e.proc).moves := Proc.scan_moves _ _
  have printed : (m.caller e).unterminated = (m.procs e.proc).moves := by
    rw [← inv.printed e.proc, Proc.unterminated, Machine.caller, Proc.scan_printed]
    rfl
  have effect := (m.caller e).perform_effect m.file e.stack e.refused
  rw [Machine.next]
  generalize (m.caller e).perform m.file e.stack e.refused = result at effect
  generalize m.caller e = p at *
  -- Who reaches the end of the file: the process itself, unchanged, or another one.
  have reached : k = n ∨ (m.procs e.proc).moves = k ∨ ∃ j ≠ e.proc, (m.procs j).moves = k := by
    refine attained.imp_right fun ⟨j, hj⟩ => ?_
    by_cases same : j = e.proc
    · exact .inl (same ▸ hj)
    · exact .inr ⟨j, same, hj⟩
  cases effect with
  | @quiet p' moves' pos' printed' =>
    rw [file]
    refine inv.set least others (by omega) ?_ ?_ (by omega)
    · refine reached.imp_right fun reached => reached.imp_left fun h => ?_
      omega
    · intro off opened
      rw [moves', moves]
      obtain same | closed := pos'
      · exact pos off (same ▸ opened)
      · rw [closed] at opened
        cases opened
  | @read p' off opened some_data moves' pos' printed' =>
    rw [file, pos off opened, ← record_length, pread_records] at some_data
    have inside : (m.procs e.proc).moves < k := by
      by_contra outside
      exact some_data (if_neg outside)
    have data : pread m.file off 10 = record := by
      rw [file, pos off opened, ← record_length, pread_records, if_pos inside]
    rw [data] at pos' printed'
    rw [file]
    refine inv.set least others (by omega) ?_ ?_ ?_
    · refine reached.imp_right fun reached => .inr ?_
      exact reached.resolve_left (by omega)
    · intro off' opened'
      rw [pos'] at opened'
      rw [← Option.some.inj opened', pos off opened, moves', moves, Nat.succ_mul]
    · -- The record fills the array: nothing is left of what it held before.
      rw [record_length, List.drop_eq_nil_of_le (List.length_take_le _ _), List.append_nil,
        printArray_record] at printed'
      rw [moves', moves, ← printed, Proc.unterminated, printed', Proc.unterminated]
      simp [Printed.isUnterminated]
  | @write p' off opened moves' pos' printed' =>
    rw [file, pos off opened, pwrite_records own]
    refine inv.set (by omega) (fun j => (others j).trans (Nat.le_max_left _ _)) (by omega) ?_ ?_
      (by omega)
    · obtain further | within := Nat.lt_or_ge k ((m.procs e.proc).moves + 1)
      · exact .inr (.inl (by omega))
      · rw [Nat.max_eq_left within]
        refine reached.imp_right fun reached => .inr ?_
        exact reached.resolve_left (by omega)
    · intro off' opened'
      obtain moved | closed := pos'
      · rw [moved] at opened'
        rw [← Option.some.inj opened', pos off opened, moves', moves, Nat.succ_mul]
      · rw [closed] at opened'
        cases opened'

theorem inv_of_reachable (reach : (processes (records record n)).Reachable m) : Inv n m := by
  refine reach.invariant (fun s => inv_start) ?_
  rintro s e t ⟨-, -, -, rfl⟩ inv
  exact inv.next e

/-- Two processes that have opened an empty file. -/
def twoProcesses : Machine Bool where
  file := []
  procs _ := { buf := [], pos := some 0, lock := none, running := true, printed := [], moves := 0 }

/-- A word for one of the processes; a lock that it asks for is granted. -/
def wordEvent (i : Bool) (word : List UInt8) : Event Bool :=
  { proc := i, word := some word, stack := List.replicate 10 0, refused := none }

/-- The word `writ` for one of the processes. -/
def writEvent (i : Bool) : Event Bool := wordEvent i (ascii "writ")

theorem twoProcesses_start : twoProcesses.Start [] := ⟨rfl, fun _ => ⟨rfl, rfl, rfl, rfl⟩⟩

theorem wordEvent_fits {i : Bool} {word : List UInt8} (short : word.length < 128) :
    (wordEvent i word).Fits := by
  refine ⟨?_, rfl⟩
  rintro _ ⟨rfl⟩
  exact short

theorem both_have_written : (processes (records record 0)).Reachable
    ((twoProcesses.next (writEvent false)).next (writEvent true)) := by
  have first : (processes []).step twoProcesses (writEvent false)
      (twoProcesses.next (writEvent false)) := by
    refine ⟨rfl, wordEvent_fits (by decide), ?_, rfl⟩
    rintro ⟨word, -⟩
    exact absurd word (by decide)
  have second : (processes []).step (twoProcesses.next (writEvent false)) (writEvent true)
      ((twoProcesses.next (writEvent false)).next (writEvent true)) := by
    refine ⟨rfl, wordEvent_fits (by decide), ?_, rfl⟩
    rintro ⟨word, -⟩
    exact absurd word (by decide)
  exact ((System.Reachable.start twoProcesses_start).extend first).extend second

/-- Whatever the processes do to a file of whole records, it is as long as the furthest of them
has come: the records of several writers are not added up, they overwrite each other. The offset
of an open file is where the moves of its process have led. -/
theorem file_of_reachable (reach : (processes (records record n)).Reachable m) :
    (∃ k, m.file = records record k ∧
      IsGreatest (insert n (Set.range fun i => (m.procs i).moves)) k) ∧
      ∀ i off, (m.procs i).pos = some off → off = (m.procs i).moves * record.length := by
  refine ⟨?_, (inv_of_reachable reach).pos⟩
  obtain ⟨k, file, least, others, attained⟩ := (inv_of_reachable reach).file
  refine ⟨k, file, ?_, ?_⟩
  · exact attained.imp_right id
  · rintro j (rfl | ⟨i, rfl⟩)
    · exact least
    · exact others i

theorem two_writers_leave_one_record :
    ((twoProcesses.next (writEvent false)).next (writEvent true)).file = record ∧
    (∃ k, ((twoProcesses.next (writEvent false)).next (writEvent true)).file = records record k ∧
      IsGreatest (insert 0 (Set.range fun i =>
        (((twoProcesses.next (writEvent false)).next (writEvent true)).procs i).moves)) k) ∧
    ∀ i off, (((twoProcesses.next (writEvent false)).next (writEvent true)).procs i).pos =
      some off → off =
        (((twoProcesses.next (writEvent false)).next (writEvent true)).procs i).moves * 10 :=
  ⟨by decide, file_of_reachable both_have_written⟩

end Safety

/-! ### The locks -/

section Locks

variable {ι : Type*} [DecidableEq ι] {file : List UInt8} {m m' t s : Machine ι}
  {run : List (Event ι)}

/-- Two processes that differ at most in their locks and in what they have printed. -/
structure Proc.Agrees (p q : Proc) : Prop where
  buf : p.buf = q.buf
  pos : p.pos = q.pos
  running : p.running = q.running
  moves : p.moves = q.moves

theorem Proc.Agrees.refl (p : Proc) : p.Agrees p := ⟨rfl, rfl, rfl, rfl⟩

/-- Two machines whose files are equal and whose processes agree. -/
structure Machine.Agrees (m m' : Machine ι) : Prop where
  file : m.file = m'.file
  procs : ∀ i, (m.procs i).Agrees (m'.procs i)

theorem Proc.Agrees.trans {p q r : Proc} (first : p.Agrees q) (second : q.Agrees r) :
    p.Agrees r :=
  ⟨first.buf.trans second.buf, first.pos.trans second.pos, first.running.trans second.running,
    first.moves.trans second.moves⟩

theorem Proc.fileLock_agrees (p : Proc) (refused : Option (List UInt8)) :
    (p.fileLock refused).Agrees p := by
  unfold Proc.fileLock
  cases p.flockError refused <;> exact ⟨rfl, rfl, rfl, rfl⟩

theorem Proc.fileUnlock_agrees (p : Proc) (refused : Option (List UInt8)) :
    (p.fileUnlock refused).Agrees p := by
  unfold Proc.fileUnlock
  cases p.flockError refused <;> exact ⟨rfl, rfl, rfl, rfl⟩

section Pairs

variable {p q : Proc} (same : p.Agrees q) (file stack : List UInt8)

include same

theorem Proc.Agrees.scan (word : Option (List UInt8)) : (p.scan word).Agrees (q.scan word) := by
  cases word with
  | none => exact same
  | some word => exact ⟨rfl, same.pos, same.running, same.moves⟩

theorem Proc.Agrees.fileRead : (p.fileRead file stack).Agrees (q.fileRead file stack) := by
  unfold Proc.fileRead
  rw [same.pos]
  cases q.pos with
  | none => exact ⟨same.buf, same.pos, same.running, same.moves⟩
  | some off =>
    dsimp only
    split_ifs
    · exact ⟨same.buf, rfl, same.running, congrArg (· + 1) same.moves⟩
    · exact ⟨same.buf, same.pos, same.running, same.moves⟩

theorem Proc.Agrees.fileWrit : (p.fileWrit file).1.Agrees (q.fileWrit file).1 ∧
    (p.fileWrit file).2 = (q.fileWrit file).2 := by
  unfold Proc.fileWrit
  rw [same.pos]
  cases q.pos with
  | none => exact ⟨⟨same.buf, same.pos, same.running, same.moves⟩, rfl⟩
  | some off => exact ⟨⟨same.buf, rfl, same.running, congrArg (· + 1) same.moves⟩, rfl⟩

theorem Proc.Agrees.close : p.close.Agrees q.close := by
  unfold Proc.close
  rw [same.pos]
  cases q.pos with
  | none => exact ⟨same.buf, same.pos, same.running, same.moves⟩
  | some off => exact ⟨same.buf, rfl, same.running, same.moves⟩

theorem Proc.Agrees.fileClose : (p.fileClose file).1.Agrees (q.fileClose file).1 ∧
    (p.fileClose file).2 = (q.fileClose file).2 := by
  obtain ⟨⟨buf, pos, running, moves⟩, written⟩ := same.fileWrit file
  refine ⟨Proc.Agrees.close ?_, written⟩
  exact ⟨buf, pos, running, moves⟩

/-- A command does the same to the file and to the offset when the locks are left out. -/
theorem Proc.Agrees.perform (refused : Option (List UInt8)) :
    (p.perform file stack refused).1.Agrees (q.performUnlocked file stack).1 ∧
      (p.perform file stack refused).2 = (q.performUnlocked file stack).2 := by
  unfold Proc.performUnlocked Proc.perform
  rw [same.buf]
  cases command q.buf with
  | none => exact ⟨same, rfl⟩
  | some c =>
    cases c with
    | lock => exact ⟨(p.fileLock_agrees refused).trans same, rfl⟩
    | unlock => exact ⟨(p.fileUnlock_agrees refused).trans same, rfl⟩
    | read => exact ⟨same.fileRead file stack, rfl⟩
    | writ => exact same.fileWrit file
    | close => exact same.fileClose file
    | exit => exact ⟨⟨same.buf, rfl, rfl, same.moves⟩, rfl⟩

end Pairs

theorem Machine.Agrees.next (same : m.Agrees m') (e : Event ι) :
    (m.next e).Agrees (m'.nextUnlocked e) := by
  obtain ⟨procs, file⟩ := ((same.procs e.proc).scan e.word).perform m.file e.stack
    e.refused
  rw [Machine.next, Machine.nextUnlocked, Machine.caller, Machine.caller, ← same.file]
  refine ⟨file, fun i => ?_⟩
  by_cases own : i = e.proc
  · subst own
    simpa [Machine.set] using procs
  · simpa [Machine.set, own] using same.procs i

/-- A command keeps the lock, gives it up or gets a shared one. -/
theorem Proc.perform_lock (p : Proc) (file stack : List UInt8) (refused : Option (List UInt8)) :
    (p.perform file stack refused).1.lock = p.lock ∨
      (p.perform file stack refused).1.lock = none ∨
      (p.perform file stack refused).1.lock = some .shared := by
  unfold Proc.perform
  cases command p.buf with
  | none => exact .inl rfl
  | some c =>
    cases c with
    | lock =>
      unfold Proc.fileLock
      cases p.flockError refused with
      | none => exact .inr (.inr rfl)
      | some reason => exact .inl rfl
    | unlock =>
      unfold Proc.fileUnlock
      cases p.flockError refused with
      | none => exact .inr (.inl rfl)
      | some reason => exact .inl rfl
    | read =>
      unfold Proc.fileRead
      cases p.pos with
      | none => exact .inl rfl
      | some off =>
        dsimp only
        split_ifs <;> exact .inl rfl
    | writ =>
      unfold Proc.fileWrit
      cases p.pos <;> exact .inl rfl
    | close =>
      unfold Proc.fileClose Proc.fileWrit
      cases opened : p.pos with
      | none =>
        left
        simp [Proc.close, opened]
      | some off => exact .inr (.inl rfl)
    | exit => exact .inr (.inl rfl)

/-- No process has the file locked exclusively. -/
def Machine.SharedOnly (m : Machine ι) : Prop := ∀ i, (m.procs i).lock ≠ some .exclusive

theorem Machine.SharedOnly.next (shared : m.SharedOnly) (e : Event ι) : (m.next e).SharedOnly := by
  rw [Machine.SharedOnly, Machine.next, Machine.set,
    Function.forall_update_iff m.procs fun _ p => p.lock ≠ some .exclusive]
  refine ⟨?_, fun j _ => shared j⟩
  obtain same | gone | now := (m.caller e).perform_lock m.file e.stack e.refused
  · rw [same, Machine.caller, Proc.scan_lock]
    exact shared e.proc
  · simp [gone]
  · simp [now]

end Locks

end LinuxProgram.FdLock
