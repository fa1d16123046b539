import LinuxProgram.Base.Systems
import LinuxProgram.Base.Text
import Mathlib.Logic.Function.Basic

/-!
# The single-instance guard

`already_running` of `process/sig_process.c` lets one process at a time through. It
opens a lock file, tries to lock it, and on success replaces the contents by its
process id. A process that does not get the lock closes the file and stops.

Any number of processes run this code at the same time, each one system call at a
time, and any of them may die at any moment. The kernel keeps the contents of the
file and the process that has locked it: the lock covers the whole file, excludes
other processes, and is gone when its holder closes the file or dies. What the file
contains before the first process starts is arbitrary.

## Main definitions

* `Phase` — where a process is in `already_running` and `main`
* `Machine`, `Call`, `step` — the file, the lock, the processes and their system calls

## Main results

* `inv_of_reachable` — phases, lock and contents belong together
* `single_instance` — at most one live process has the lock, and the process that was
  let through finds its own id in the file
-/

namespace LinuxProgram.Process

open Base

/-- `EACCES`. -/
def eacces : ℕ := 13

/-- `EAGAIN`. -/
def eagain : ℕ := 11

/-- Where a process is. -/
inductive Phase
  /-- Before `open`. -/
  | start
  /-- Before `lockfile`. -/
  | opened
  /-- The lock is taken; before `close`. -/
  | refused
  /-- Locked; before `ftruncate`. -/
  | locked
  /-- Locked; before `write`. -/
  | truncated
  /-- `already_running` has returned 0. -/
  | running
  /-- `already_running` has returned 1; before `exit(0)`. -/
  | turnedAway
  /-- Before `exit(1)`. -/
  | failed
  | dead
  deriving DecidableEq, Repr

/-- The phases of a live process that has obtained the lock. -/
def Phase.hasLock : Phase → Bool
  | locked | truncated | running => true
  | _ => false

/-- The result of `fcntl(fd, F_SETLK, &fl)`. -/
inductive SetLk
  | granted
  | failed (errno : ℕ)

/-- The system calls and deaths of the processes. -/
inductive Call (ι : Type*)
  | open (i : ι)
  | lockfile (i : ι) (result : SetLk)
  | close (i : ι)
  | ftruncate (i : ι)
  | write (i : ι)
  | exit (i : ι)

/-- The lock file and the processes. -/
structure Machine (ι : Type*) where
  content : List UInt8
  holder : Option ι
  phase : ι → Phase

/-- What `write(fd, buf, strlen(buf) + 1)` stores, `buf` being an uninitialised array
that `sprintf` has printed the process id to. -/
def pidLine (buf : List UInt8) (pid : ℤ) : List UInt8 :=
  let buf := store buf (decimal pid)
  buf.take (strlen buf + 1)

section Model

variable {ι : Type*} [DecidableEq ι]

/-- A process closes the file or dies: its lock is gone. -/
def release (holder : Option ι) (i : ι) : Option ι := if holder = some i then none else holder

namespace Machine

/-- A process goes on to another phase. -/
def goto (m : Machine ι) (i : ι) (p : Phase) : Machine ι :=
  { m with phase := Function.update m.phase i p }

end Machine

variable (pid : ι → ℤ) (buf : ι → List UInt8)

/-- One system call, if the process is at it and the kernel can give that result. -/
def step (m : Machine ι) : Call ι → Option (Machine ι)
  | .open i => if m.phase i = .start then some (m.goto i .opened) else none
  | .lockfile i .granted =>
    -- A lock of another process excludes this one.
    if m.phase i = .opened ∧ (m.holder = none ∨ m.holder = some i) then
      some { m.goto i .locked with holder := some i }
    else none
  | .lockfile i (.failed errno) =>
    if m.phase i = .opened then
      if errno = eacces ∨ errno = eagain then some (m.goto i .refused) else some (m.goto i .failed)
    else none
  | .close i =>
    if m.phase i = .refused then
      some { m.goto i .turnedAway with holder := release m.holder i }
    else none
  | .ftruncate i =>
    if m.phase i = .locked then some { m.goto i .truncated with content := [] } else none
  | .write i =>
    if m.phase i = .truncated then
      -- The file offset is still 0.
      let line := pidLine (buf i) (pid i)
      some { m.goto i .running with content := line ++ m.content.drop line.length }
    else none
  | .exit i =>
    if m.phase i ≠ .dead then
      some { m.goto i .dead with holder := release m.holder i }
    else none

/-- The processes and the file as a transition system. -/
def guard : System (Machine ι) (Call ι) where
  init m := m.holder = none ∧ ∀ i, m.phase i = .start
  step m call m' := step pid buf m call = some m'

end Model

/-! ### The invariant -/

theorem pidLine_eq (buf : List UInt8) (pid : ℤ) : pidLine buf pid = decimal pid ++ [0] := by
  have held : text (store buf (decimal pid)) = decimal pid := store_text decimal_ne_zero
  rw [pidLine, strlen, held, store, List.take_length_add_append]
  rfl

section Invariant

variable {ι : Type*} {pid : ι → ℤ} {buf : ι → List UInt8}

/-- The phases of the processes, the lock and the contents belong together. -/
structure Inv (pid : ι → ℤ) (m : Machine ι) : Prop where
  holder : ∀ i, (m.phase i).hasLock = true ↔ m.holder = some i
  emptied : ∀ i, m.phase i = .truncated → m.content = []
  written : ∀ i, m.phase i = .running → m.content = decimal (pid i) ++ [0]

theorem inv_of_init {m : Machine ι} (free : m.holder = none) (fresh : ∀ i, m.phase i = .start) :
    Inv pid m := by
  refine ⟨?_, ?_, ?_⟩
  · intro i
    simp [fresh i, free, Phase.hasLock]
  · intro i truncated
    rw [fresh i] at truncated
    cases truncated
  · intro i running
    rw [fresh i] at running
    cases running

namespace Inv

variable {m m' : Machine ι} {i j : ι}

/-- Two processes with the lock are one. -/
theorem unique (inv : Inv pid m) (hi : (m.phase i).hasLock = true)
    (hj : (m.phase j).hasLock = true) : i = j := by
  have same := ((inv.holder i).mp hi).symm.trans ((inv.holder j).mp hj)
  exact Option.some.inj same

/-- While a process has the lock, no other has. -/
theorem alone (inv : Inv pid m) (lock : (m.phase i).hasLock = true) (j : ι) (other : j ≠ i) :
    (m.phase j).hasLock = false := by
  by_contra held
  exact other (inv.unique (by simpa using held) lock)

variable [DecidableEq ι] {p : Phase}

/-- What a step of the process `i` to the phase `p` has to provide: its own part of the
invariant, and that it takes the lock from nobody and writes only when nobody else has
the lock. -/
theorem of_step (inv : Inv pid m) (phase : m'.phase = Function.update m.phase i p)
    (own : p.hasLock = true ↔ m'.holder = some i)
    (keeps : ∀ j, j ≠ i → (m'.holder = some j ↔ m.holder = some j))
    (content : m'.content = m.content ∨ ∀ j, j ≠ i → (m.phase j).hasLock = false)
    (emptied : p = .truncated → m'.content = [])
    (written : p = .running → m'.content = decimal (pid i) ++ [0]) : Inv pid m' := by
  have moved : m'.phase i = p := by rw [phase, Function.update_self]
  have others : ∀ j, j ≠ i → m'.phase j = m.phase j := by
    intro j other
    rw [phase, Function.update_of_ne other]
  -- Another process with the lock still finds the contents it had.
  have same : ∀ j, j ≠ i → (m.phase j).hasLock = true → m'.content = m.content := by
    intro j other lock
    rcases content with kept | alone
    · exact kept
    · rw [alone j other] at lock
      cases lock
  refine ⟨fun j => ?_, fun j truncated => ?_, fun j running => ?_⟩
  · by_cases other : j = i
    · rw [other, moved]
      exact own
    · rw [others j other, keeps j other]
      exact inv.holder j
  · by_cases other : j = i
    · rw [other, moved] at truncated
      exact emptied truncated
    · rw [others j other] at truncated
      rw [same j other (by rw [truncated]; rfl)]
      exact inv.emptied j truncated
  · by_cases other : j = i
    · rw [other, moved] at running
      rw [other]
      exact written running
    · rw [others j other] at running
      rw [same j other (by rw [running]; rfl)]
      exact inv.written j running

/-- A process without the lock goes on, still without it. -/
theorem goto (inv : Inv pid m) (before : (m.phase i).hasLock = false) (after : p.hasLock = false) :
    Inv pid (m.goto i p) := by
  have own := inv.holder i
  rw [before] at own
  refine inv.of_step rfl ?_ (fun j _ => Iff.rfl) (.inl rfl) ?_ ?_
  · rw [after]
    exact own
  · rintro rfl
    cases after
  · rintro rfl
    cases after

/-- A process leaves, and with it its lock. -/
theorem leave (inv : Inv pid m) (after : p.hasLock = false) :
    Inv pid { m.goto i p with holder := release m.holder i } := by
  refine inv.of_step rfl ?_ ?_ (.inl rfl) ?_ ?_
  · rw [after, release]
    split_ifs with held <;> simp [held]
  · intro j other
    dsimp only
    rw [release]
    split_ifs with held
    · rw [held]
      simp [Ne.symm other]
    · rfl
  · rintro rfl
    cases after
  · rintro rfl
    cases after

/-- A free lock is taken. -/
theorem lock (inv : Inv pid m) (free : m.holder = none ∨ m.holder = some i) :
    Inv pid { m.goto i .locked with holder := some i } := by
  refine inv.of_step rfl ?_ ?_ (.inl rfl) nofun nofun
  · simp [Phase.hasLock]
  · intro j other
    rcases free with free | free <;> simp [free, Ne.symm other]

/-- The holder changes the contents. -/
theorem rewrite (inv : Inv pid m) (lock : (m.phase i).hasLock = true) (after : p.hasLock = true)
    {content : List UInt8} (emptied : p = .truncated → content = [])
    (written : p = .running → content = decimal (pid i) ++ [0]) :
    Inv pid { m.goto i p with content } := by
  have holds : m.holder = some i := (inv.holder i).mp lock
  exact inv.of_step rfl (iff_of_true after holds) (fun j _ => Iff.rfl) (.inr (inv.alone lock))
    emptied written

/-- Every system call keeps the invariant. -/
theorem step (inv : Inv pid m) {call : Call ι} (taken : step pid buf m call = some m') :
    Inv pid m' := by
  cases call with
  | «open» i =>
    simp only [Process.step] at taken
    split_ifs at taken with at_start
    obtain rfl := Option.some.inj taken
    exact inv.goto (by rw [at_start]; rfl) rfl
  | lockfile i result =>
    cases result with
    | granted =>
      simp only [Process.step] at taken
      split_ifs at taken with free
      obtain rfl := Option.some.inj taken
      exact inv.lock free.2
    | failed errno =>
      simp only [Process.step] at taken
      split_ifs at taken with at_lock
      · obtain rfl := Option.some.inj taken
        exact inv.goto (by rw [at_lock]; rfl) rfl
      · obtain rfl := Option.some.inj taken
        exact inv.goto (by rw [at_lock]; rfl) rfl
  | close i =>
    simp only [Process.step] at taken
    split_ifs at taken
    obtain rfl := Option.some.inj taken
    exact inv.leave rfl
  | ftruncate i =>
    simp only [Process.step] at taken
    split_ifs at taken with at_truncate
    obtain rfl := Option.some.inj taken
    exact inv.rewrite (by rw [at_truncate]; rfl) rfl (fun _ => rfl) nofun
  | write i =>
    simp only [Process.step] at taken
    split_ifs at taken with at_write
    obtain rfl := Option.some.inj taken
    refine inv.rewrite (by rw [at_write]; rfl) rfl nofun fun _ => ?_
    -- The file is empty, so nothing is left behind the new line.
    rw [inv.emptied i at_write, List.drop_nil, List.append_nil, pidLine_eq]
  | exit i =>
    simp only [Process.step] at taken
    split_ifs at taken
    obtain rfl := Option.some.inj taken
    exact inv.leave rfl

end Inv

theorem inv_of_reachable [DecidableEq ι] {m : Machine ι} (reach : (guard pid buf).Reachable m) :
    Inv pid m := by
  refine reach.invariant ?_ fun m call m' taken inv => inv.step taken
  rintro m ⟨free, fresh⟩
  exact inv_of_init free fresh

end Invariant

/-- **Single instance.** In every reachable state at most one live process has the lock,
hence at most one has been let through, and that one finds exactly its own process id and
a zero byte in the file. -/
theorem single_instance {ι : Type*} [DecidableEq ι] (pid : ι → ℤ) (buf : ι → List UInt8)
    {m : Machine ι} (reach : (guard pid buf).Reachable m) :
    (∀ i j, (m.phase i).hasLock = true → (m.phase j).hasLock = true → i = j) ∧
      (∀ i j, m.phase i = .running → m.phase j = .running → i = j) ∧
      ∀ i, m.phase i = .running → m.content = decimal (pid i) ++ [0] := by
  have inv := inv_of_reachable reach
  refine ⟨fun i j => inv.unique, fun i j hi hj => ?_, inv.written⟩
  exact inv.unique (by rw [hi]; rfl) (by rw [hj]; rfl)

/-- Stale text in the file, and a process that replaces it while another is turned
away. -/
theorem single_instance_second_turned_away :
    ∃ m : Machine Bool,
      (guard (fun b => if b then 4711 else 815) (fun _ => List.replicate 16 0xFF)).Reachable m ∧
        m.phase true = .running ∧ m.phase false = .refused ∧
        m.content = decimal 4711 ++ [0] := by
  set G := guard (fun b : Bool => if b then (4711 : ℤ) else 815) (fun _ => List.replicate 16 0xFF)
  let m₀ : Machine Bool := ⟨decimal 31337 ++ [0], none, fun _ => .start⟩
  let m₁ := m₀.goto true .opened
  let m₂ : Machine Bool := { m₁.goto true .locked with holder := some true }
  let m₃ := m₂.goto false .opened
  let m₄ := m₃.goto false .refused
  let m₅ : Machine Bool := { m₄.goto true .truncated with content := [] }
  let line := pidLine (List.replicate 16 0xFF) 4711
  let m₆ : Machine Bool := { m₅.goto true .running with content := line ++ [].drop line.length }
  have start : G.init m₀ := ⟨rfl, fun _ => rfl⟩
  have opened : G.step m₀ (.open true) m₁ := rfl
  have locked : G.step m₁ (.lockfile true .granted) m₂ := rfl
  have late : G.step m₂ (.open false) m₃ := rfl
  have refused : G.step m₃ (.lockfile false (.failed eagain)) m₄ := rfl
  have emptied : G.step m₄ (.ftruncate true) m₅ := rfl
  have written : G.step m₅ (.write true) m₆ := rfl
  have reach : G.Reachable m₆ := (((((System.Reachable.start start).extend opened).extend
    locked).extend late).extend refused).extend emptied |>.extend written
  exact ⟨m₆, reach, rfl, rfl, (single_instance _ _ reach).2.2 true rfl⟩

end LinuxProgram.Process
