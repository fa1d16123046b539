import LinuxProgram.Base.Loops
import LinuxProgram.Base.Words
import Mathlib.Data.List.Induction
import Mathlib.Tactic.Common
import Mathlib.Tactic.Ring

/-!
# Running a command with a time-out

`netdet_popen` starts a command, copies what the command writes to a pipe into a temporary
file, and hands the file to the caller. Each round of its loop waits for output with `select`,
and a round in which nothing arrives looks whether the command still exists.

A command that runs longer than the time-out is sent `SIGINT` and marked by storing `-5` in
`ret`. The next round stores the result of `select` in the same variable before it is looked
at, so the mark is lost: unless that round leaves the loop for a reason of its own, the command
is sent another `SIGINT` at its end, and so on.

## Main definitions

* `netdetPopen`, `cmdExec`, `iterate` — the code
* `Round` — what the system calls of one round return
* `Round.Leaves` — the round leaves the loop, whatever came before it
* `TimesOut` — the loop ends with the round after the time-out

## Main results

* `netdetPopen_collects` — the file contains what was read, and everything else is released
* `timesOut_iff` — the time-out works exactly if the round after it leaves the loop anyway
-/

namespace LinuxProgram.Popen

open Base

/-! ### The surroundings -/

/-- A stream of the C library that writes to a file of its own. -/
structure Stream where
  contents : List UInt8
  pos : ℕ
  /-- How often the stream was closed. -/
  closes : ℕ

namespace Stream

/-- `tmpfile`. -/
def tmpfile : Stream := { contents := [], pos := 0, closes := 0 }

/-- `fwrite`, where it succeeds. -/
def fwrite (bytes : List UInt8) (f : Stream) : Stream :=
  { f with
    contents := f.contents.take f.pos ++ bytes ++ f.contents.drop (f.pos + bytes.length)
    pos := f.pos + bytes.length }

/-- `fseek(f, 0, SEEK_SET)`. -/
def rewind (f : Stream) : Stream := { f with pos := 0 }

/-- `fclose`. -/
def fclose (f : Stream) : Stream := { f with closes := f.closes + 1 }

end Stream

/-- `struct timeval`. -/
structure Timeval where
  tvSec : ℤ
  tvUsec : ℤ

/-- `get_current_time`, in milliseconds. -/
def getCurrentTime (tv : Timeval) : ℤ := toInt64 (tv.tvSec * 1000 + (toInt32 tv.tvUsec).tdiv 1000)

/-- `EINTR`. -/
def eintr : ℕ := 4

/-- `EBADF`. -/
def ebadf : ℕ := 9

/-- `sizeof(buf)`. -/
def bufSize : ℕ := 2048

/-- What the calls of one round return. A call that the round does not make is not looked
at. -/
structure Round where
  select : ℤ
  errno : ℕ
  /-- The bytes that `read` stores, or nothing if it fails. -/
  read : Option (List UInt8)
  /-- `kill(proc.pid, 0)`. -/
  kill : ℤ
  time : Timeval
  read_le : ∀ bytes, read = some bytes → bytes.length ≤ bufSize

/-! ### The loop -/

/-- The variables of the loop. -/
structure Loop where
  /-- `proc.pf`. -/
  file : Stream
  ret : ℤ
  readCount : ℤ
  timeCount1 : ℤ
  cmdTime : ℤ
  /-- The bytes that `read` has returned so far. -/
  output : List UInt8
  /-- How often `SIGINT` was sent. -/
  sigints : ℕ

namespace Loop

/-- Before the first round. -/
def start (time : Timeval) : Loop :=
  { file := .tmpfile, ret := 0, readCount := 0, timeCount1 := getCurrentTime time, cmdTime := 0,
    output := [], sigints := 0 }

/-- The end of a round: `if (ret == -5) break;`, the clock and the time-out. -/
def checkTime (timeout : ℤ) (time : Timeval) (s : Loop) : Except Loop Loop :=
  if s.ret = -5 then .error s
  else
    let timeCount2 := getCurrentTime time
    let cmdTime := toInt64 (s.cmdTime + toInt64 (timeCount2 - s.timeCount1))
    if timeout < cmdTime then
      .ok { s with cmdTime, timeCount1 := timeCount2, sigints := s.sigints + 1, ret := -5 }
    else .ok { s with cmdTime, timeCount1 := timeCount2 }

/-- `num` bytes were read. -/
def readBytes (bytes : List UInt8) (s : Loop) : Loop :=
  { s with
    file := s.file.fwrite bytes
    readCount := toInt32 (s.readCount + bytes.length)
    output := s.output ++ bytes }

/-- One round. It leaves the loop with an error. -/
def iterate (timeout : ℤ) (s : Loop) (round : Round) : Except Loop Loop :=
  -- The mark of the time-out is lost here.
  let s := { s with ret := round.select }
  if s.ret = 1 then
    match round.read with
    | some (b :: bytes) => (s.readBytes (b :: bytes)).checkTime timeout round.time
    -- The end of the output, or an error.
    | _ => .error s
  else if s.ret = 0 then
    if round.kill ≠ 0 then .error s else s.checkTime timeout round.time
  else if round.errno = ebadf ∨ round.errno = eintr then .error s
  else s.checkTime timeout round.time

end Loop

/-! ### The functions -/

/-- What `cmd_exec` returns, and how often it closes the reading end of the pipe. The parent
keeps that end open. -/
def cmdExec (pipe fork : ℤ) : ℤ × ℕ :=
  if pipe ≠ 0 then (-1, 0) else if fork < 0 then (-1, 1) else (0, 0)

/-- How a call of `netdet_popen` ends. -/
structure Result where
  ret : ℤ
  /-- What `*pf` was set to, if it was. -/
  pf : Option Stream
  /-- The temporary file, if there is one. -/
  file : Option Stream
  /-- How often the reading end of the pipe was closed. -/
  pipeCloses : ℕ
  output : List UInt8
  sigints : ℕ

/-- The statements behind the loop. -/
def Loop.finish (closed : ℕ) (s : Loop) : Result :=
  if 0 < s.readCount then
    { ret := s.readCount, pf := some s.file.rewind, file := some s.file.rewind,
      pipeCloses := closed + 1, output := s.output, sigints := s.sigints }
  else
    { ret := -1, pf := none, file := some s.file.fclose, pipeCloses := closed + 1,
      output := s.output, sigints := s.sigints }

/-- `netdet_popen`. It has no result as long as the loop goes on. -/
def netdetPopen (tmpfile : Bool) (pipe fork : ℤ) (time : Timeval) (timeout : ℤ)
    (rounds : List Round) : Option Result :=
  if tmpfile then
    let (started, closed) := cmdExec pipe fork
    if started = 0 then
      match runEvents (Loop.iterate timeout) (.start time) rounds with
      | .error s => some (s.finish closed)
      | .ok _ => none
    else
      some { ret := -1, pf := none, file := some Stream.tmpfile.fclose, pipeCloses := closed,
             output := [], sigints := 0 }
  else some { ret := -2, pf := none, file := none, pipeCloses := 0, output := [], sigints := 0 }

/-! ### One round -/

/-- The round leaves the loop, whatever came before it. -/
def Round.Leaves (round : Round) : Prop :=
  if round.select = 1 then round.read = none ∨ round.read = some []
  else if round.select = 0 then round.kill ≠ 0
  else round.errno = ebadf ∨ round.errno = eintr ∨ round.select = -5

instance (round : Round) : Decidable round.Leaves :=
  inferInstanceAs (Decidable (if round.select = 1 then round.read = none ∨ round.read = some []
    else if round.select = 0 then round.kill ≠ 0
    else round.errno = ebadf ∨ round.errno = eintr ∨ round.select = -5))

/-- The bytes that the round reads. -/
def Round.bytes (round : Round) : List UInt8 :=
  if round.select = 1 then round.read.getD [] else []

namespace Loop

variable {timeout : ℤ} {s t : Loop} {round : Round}

/-- The variables when the clock is read. -/
def receive (round : Round) (s : Loop) : Loop :=
  let s := { s with ret := round.select }
  if round.select = 1 then s.readBytes (round.read.getD []) else s

/-- The variables at the end of a round that does not leave. -/
def advance (timeout : ℤ) (time : Timeval) (s : Loop) : Loop :=
  let cmdTime := toInt64 (s.cmdTime + toInt64 (getCurrentTime time - s.timeCount1))
  let s := { s with cmdTime, timeCount1 := getCurrentTime time }
  if timeout < cmdTime then { s with sigints := s.sigints + 1, ret := -5 } else s

theorem checkTime_of_ne (time : Timeval) (unmarked : s.ret ≠ -5) :
    s.checkTime timeout time = .ok (s.advance timeout time) := by
  unfold checkTime advance
  rw [if_neg unmarked]
  dsimp only
  split_ifs <;> rfl

/-- A round that leaves has only stored the result of `select`. -/
theorem iterate_of_leaves (leaves : round.Leaves) :
    s.iterate timeout round = .error { s with ret := round.select } := by
  unfold Round.Leaves at leaves
  unfold iterate
  dsimp only
  split_ifs at leaves ⊢ with ready quiet
  · rcases leaves with failed | ended
    · rw [failed]
    · rw [ended]
  · rfl
  · rfl
  · -- Only a result of `-5` is left.
    have mark : round.select = -5 := by tauto
    unfold checkTime
    exact if_pos mark

theorem iterate_of_not_leaves (goes_on : ¬ round.Leaves) :
    s.iterate timeout round = .ok ((s.receive round).advance timeout round.time) := by
  unfold Round.Leaves at goes_on
  unfold iterate receive
  dsimp only
  split_ifs at goes_on ⊢ with ready quiet bad
  · push Not at goes_on
    obtain ⟨some_read, some_bytes⟩ := goes_on
    cases given : round.read with
    | none => exact absurd given some_read
    | some bytes =>
      cases bytes with
      | nil => exact absurd given some_bytes
      | cons b bytes =>
        exact checkTime_of_ne _ (show round.select ≠ -5 by omega)
  · exact checkTime_of_ne _ (show round.select ≠ -5 by omega)
  · tauto
  · exact checkTime_of_ne _ (show round.select ≠ -5 by tauto)

/-- What a round does, told apart by whether it leaves. -/
theorem iterate_ok (ran : s.iterate timeout round = .ok t) :
    ¬ round.Leaves ∧ t = (s.receive round).advance timeout round.time := by
  by_cases leaves : round.Leaves
  · rw [iterate_of_leaves leaves] at ran
    cases ran
  · rw [iterate_of_not_leaves leaves] at ran
    exact ⟨leaves, (Except.ok.inj ran).symm⟩

theorem iterate_error (left : s.iterate timeout round = .error t) :
    round.Leaves ∧ t = { s with ret := round.select } := by
  by_cases leaves : round.Leaves
  · rw [iterate_of_leaves leaves] at left
    exact ⟨leaves, (Except.error.inj left).symm⟩
  · rw [iterate_of_not_leaves leaves] at left
    cases left

/-! ### The output -/

/-- The file contains the output and is positioned at its end, and the output is counted. -/
structure Collects (s : Loop) : Prop where
  file_eq : s.file = { contents := s.output, pos := s.output.length, closes := 0 }
  count_eq : s.readCount = toInt32 s.output.length

theorem collects_start (time : Timeval) : Collects (.start time) := by
  refine ⟨rfl, ?_⟩
  change 0 = toInt32 ((0 : ℕ) : ℤ)
  rw [toInt32_of_range (by decide) (by decide)]
  rfl

theorem Collects.congr (collects : Collects s) (same_file : t.file = s.file)
    (same_count : t.readCount = s.readCount) (same_output : t.output = s.output) : Collects t := by
  refine ⟨?_, ?_⟩
  · rw [same_file, same_output]
    exact collects.file_eq
  · rw [same_count, same_output]
    exact collects.count_eq

theorem Collects.readBytes (collects : Collects s) (bytes : List UInt8) :
    Collects (s.readBytes bytes) := by
  refine ⟨?_, ?_⟩
  · unfold Loop.readBytes Stream.fwrite
    simp [collects.file_eq]
  · unfold Loop.readBytes
    dsimp only
    rw [collects.count_eq, toInt32_add, List.length_append, Nat.cast_add]

theorem Collects.advance (collects : Collects s) (time : Timeval) :
    Collects (s.advance timeout time) := by
  unfold Loop.advance
  dsimp only
  split_ifs
  · exact collects.congr rfl rfl rfl
  · exact collects.congr rfl rfl rfl

theorem Collects.receive (collects : Collects s) (round : Round) :
    Collects (s.receive round) := by
  have stored : Collects { s with ret := round.select } := collects.congr rfl rfl rfl
  unfold Loop.receive
  dsimp only
  split_ifs
  · exact stored.readBytes _
  · exact stored

@[simp] theorem advance_output (time : Timeval) : (s.advance timeout time).output = s.output := by
  unfold advance
  dsimp only
  split_ifs <;> rfl

theorem receive_output (round : Round) : (s.receive round).output = s.output ++ round.bytes := by
  unfold receive Round.bytes
  dsimp only
  split_ifs
  · rfl
  · simp

/-- Every round keeps the file and the count right, also the one that leaves. -/
theorem collects_of_left {time : Timeval} {rounds : List Round}
    (left : runEvents (iterate timeout) (.start time) rounds = .error t) : Collects t := by
  obtain ⟨before, round, after, s, -, ran, last⟩ := runEvents_error left
  have kept : Collects s := runEvents_invariant Collects (fun s round t step collects => by
    rw [(iterate_ok step).2]
    exact (collects.receive round).advance round.time) ran (collects_start time)
  rw [(iterate_error last).2]
  exact kept.congr rfl rfl rfl

/-- The rounds of a run that goes on did not leave, and its output is what they read. -/
theorem output_of_ran {rounds : List Round} (ran : runEvents (iterate timeout) s rounds = .ok t) :
    (∀ round ∈ rounds, ¬ round.Leaves) ∧ t.output = s.output ++ rounds.flatMap Round.bytes := by
  induction rounds generalizing s with
  | nil =>
    cases ran
    exact ⟨by simp, by simp⟩
  | cons round rounds ih =>
    rw [runEvents_cons] at ran
    cases first : s.iterate timeout round with
    | error u =>
      rw [first] at ran
      cases ran
    | ok u =>
      rw [first] at ran
      obtain ⟨goes_on, rfl⟩ := iterate_ok first
      obtain ⟨stay, output⟩ := ih ran
      refine ⟨List.forall_mem_cons.mpr ⟨goes_on, stay⟩, ?_⟩
      rw [output, advance_output, receive_output, List.flatMap_cons, List.append_assoc]

end Loop

/-- Rounds that do not leave can all be made. -/
theorem Loop.run_of_stay {timeout : ℤ} {rounds : List Round}
    (stay : ∀ round ∈ rounds, ¬ round.Leaves) (s : Loop) :
    ∃ t, runEvents (iterate timeout) s rounds = .ok t := by
  induction rounds generalizing s with
  | nil => exact ⟨s, rfl⟩
  | cons round rounds ih =>
    obtain ⟨goes_on, later⟩ := List.forall_mem_cons.mp stay
    rw [runEvents_cons, iterate_of_not_leaves goes_on]
    exact ih later _

/-- **The file contains what the command wrote**: a positive result is its size, the file is
handed over at its start, and it contains what the rounds before the last one read. Otherwise
nothing was read, nothing is handed over and the file is closed. The pipe is closed once. -/
theorem netdetPopen_collects {pipe fork : ℤ} {time : Timeval} {timeout : ℤ} {rounds : List Round}
    {r : Result} (piped : pipe = 0) (forked : 0 < fork)
    (returned : netdetPopen true pipe fork time timeout rounds = some r)
    (total : r.output.length < 2 ^ 31) :
    (∃ before last after, rounds = before ++ last :: after ∧
      (∀ round ∈ before, ¬ round.Leaves) ∧ last.Leaves ∧
      r.output = before.flatMap Round.bytes) ∧
    (0 < r.ret ∨ r.ret = -1) ∧
    (0 < r.ret → r.ret = r.output.length ∧
      r.pf = some { contents := r.output, pos := 0, closes := 0 }) ∧
    (r.ret = -1 → r.output = [] ∧ r.pf = none ∧ ∃ f, r.file = some f ∧ f.closes = 1) ∧
    r.pipeCloses = 1 := by
  have exec : cmdExec pipe fork = (0, 0) := by
    rw [cmdExec, if_neg (not_not.mpr piped), if_neg (by omega)]
  unfold netdetPopen at returned
  rw [if_pos rfl, exec] at returned
  dsimp only at returned
  rw [if_pos rfl] at returned
  cases left : runEvents (Loop.iterate timeout) (.start time) rounds with
  | ok s =>
    rw [left] at returned
    cases returned
  | error s =>
    rw [left] at returned
    obtain rfl : s.finish 0 = r := Option.some.inj returned
    have collects := Loop.collects_of_left left
    obtain ⟨before, last, after, t, split, ran, stop⟩ := runEvents_error left
    obtain ⟨leaves, stopped⟩ := Loop.iterate_error stop
    obtain ⟨stay, output⟩ := Loop.output_of_ran ran
    have finished : (s.finish 0).output = s.output := by
      unfold Loop.finish
      split_ifs <;> rfl
    rw [finished] at total ⊢
    -- The count is an `int`, and the output is not too long for it.
    have count : s.readCount = s.output.length := by
      rw [collects.count_eq]
      exact toInt32_of_range (by omega) (by omega)
    refine ⟨⟨before, last, after, split, stay, leaves, ?_⟩, ?_⟩
    · rw [stopped]
      exact output
    unfold Loop.finish
    split_ifs with some_output
    · refine ⟨.inl some_output, fun _ => ⟨count, ?_⟩, fun failed => ?_, rfl⟩
      · dsimp only
        rw [collects.file_eq]
        rfl
      · dsimp only at failed
        omega
    · refine ⟨.inr rfl, fun positive => ?_, fun _ => ?_, rfl⟩
      · exact absurd (show (0 : ℤ) < -1 from positive) (by decide)
      · refine ⟨List.length_eq_zero_iff.mp (by omega), rfl, _, rfl, ?_⟩
        rw [collects.file_eq]
        rfl

/-- A round in which `read` returns the bytes; there are none at the end of the output. -/
def Round.reading (bytes : List UInt8) (fits : bytes.length ≤ bufSize) : Round where
  select := 1
  errno := 0
  read := some bytes
  kill := 0
  time := { tvSec := 0, tvUsec := 0 }
  read_le := by
    rintro _ ⟨⟩
    exact fits

/-- The output comes in two reads. -/
def twoReads : List Round :=
  [.reading [0x61, 0x62] (by decide), .reading [0x63] (by decide), .reading [] (by decide)]

theorem netdetPopen_collects_two_reads :
    ∃ r, netdetPopen true 0 7 { tvSec := 0, tvUsec := 0 } 1000 twoReads = some r ∧
      r.ret = 3 ∧ r.pf = some { contents := [0x61, 0x62, 0x63], pos := 0, closes := 0 } ∧
      r.pipeCloses = 1 := by
  set s₁ := ((Loop.start { tvSec := 0, tvUsec := 0 }).receive
    (.reading [0x61, 0x62] (by decide))).advance 1000 { tvSec := 0, tvUsec := 0 } with hs₁
  set s₂ := (s₁.receive (.reading [0x63] (by decide))).advance 1000 { tvSec := 0, tvUsec := 0 }
    with hs₂
  have output : s₂.output = [0x61, 0x62, 0x63] := by
    rw [hs₂, Loop.advance_output, Loop.receive_output, hs₁, Loop.advance_output,
      Loop.receive_output]
    rfl
  have left : runEvents (Loop.iterate 1000) (.start { tvSec := 0, tvUsec := 0 }) twoReads =
      .error { s₂ with ret := 1 } := by
    rw [twoReads, runEvents_cons, Loop.iterate_of_not_leaves (by decide)]
    change runEvents (Loop.iterate 1000) s₁ _ = _
    rw [runEvents_cons, Loop.iterate_of_not_leaves (by decide)]
    change runEvents (Loop.iterate 1000) s₂ _ = _
    rw [runEvents_cons, Loop.iterate_of_leaves (by decide)]
    rfl
  have returned : netdetPopen true 0 7 { tvSec := 0, tvUsec := 0 } 1000 twoReads =
      some (Loop.finish 0 { s₂ with ret := 1 }) := by
    unfold netdetPopen
    rw [left]
    rfl
  have finished : (Loop.finish 0 { s₂ with ret := 1 }).output = [0x61, 0x62, 0x63] := by
    unfold Loop.finish
    split_ifs <;> exact output
  obtain ⟨-, either, positive, failed, closed⟩ := netdetPopen_collects rfl (by decide) returned
    (by rw [finished]; decide)
  rw [finished] at positive failed
  have some_output : 0 < (Loop.finish 0 { s₂ with ret := 1 }).ret :=
    either.resolve_right fun none => absurd (failed none).1 (by decide)
  exact ⟨_, returned, (positive some_output).1, (positive some_output).2, closed⟩

/-! ### The time-out -/

/-- The last reading of the clock. -/
def lastReading (time : Timeval) (rounds : List Round) : ℤ :=
  getCurrentTime ((rounds.getLast?.map Round.time).getD time)

/-- After every round the elapsed time is right, also outside the arithmetic of `long` if the
clock goes forward, and the loop is left with the round after the time-out, so that `SIGINT` is
sent once at most. -/
structure TimesOut (time : Timeval) (timeout : ℤ) (rounds : List Round) : Prop where
  elapsed : ∀ k s, runEvents (Loop.iterate timeout) (.start time) (rounds.take k) = .ok s →
    s.cmdTime = toInt64 (lastReading time (rounds.take k) - getCurrentTime time)
  elapsed_exact : ∀ k s,
    runEvents (Loop.iterate timeout) (.start time) (rounds.take k) = .ok s →
    0 ≤ getCurrentTime time → getCurrentTime time ≤ lastReading time (rounds.take k) →
    s.cmdTime = lastReading time (rounds.take k) - getCurrentTime time
  left : ∀ k s next, runEvents (Loop.iterate timeout) (.start time) (rounds.take k) = .ok s →
    0 < k → timeout < s.cmdTime → rounds[k]? = some next →
    ∃ t, s.iterate timeout next = .error t
  once_running : ∀ k s, runEvents (Loop.iterate timeout) (.start time) (rounds.take k) = .ok s →
    s.sigints ≤ 1
  once_left : ∀ s, runEvents (Loop.iterate timeout) (.start time) rounds = .error s →
    s.sigints ≤ 1

/-- The round after one that ends too late leaves the loop, as long as none before it does. -/
def LeavesAfterTimeout (time : Timeval) (timeout : ℤ) (rounds : List Round) : Prop :=
  ∀ k round next, (∀ r ∈ rounds.take (k + 1), ¬ r.Leaves) → rounds[k]? = some round →
    rounds[k + 1]? = some next →
    timeout < toInt64 (getCurrentTime round.time - getCurrentTime time) → next.Leaves

section Timeout

variable {time : Timeval} {timeout : ℤ} {rounds : List Round} {s t : Loop}

theorem Loop.advance_times (s : Loop) (time : Timeval) :
    (s.advance timeout time).timeCount1 = getCurrentTime time ∧
      (s.advance timeout time).cmdTime =
        toInt64 (s.cmdTime + toInt64 (getCurrentTime time - s.timeCount1)) := by
  unfold advance
  dsimp only
  split_ifs <;> exact ⟨rfl, rfl⟩

theorem Loop.receive_times (s : Loop) (round : Round) :
    (s.receive round).timeCount1 = s.timeCount1 ∧ (s.receive round).cmdTime = s.cmdTime ∧
      (s.receive round).sigints = s.sigints := by
  unfold receive
  dsimp only
  split_ifs <;> exact ⟨rfl, rfl, rfl⟩

/-- `SIGINT` is sent at the end of a round that ends too late. -/
theorem Loop.advance_sigints (s : Loop) (time : Timeval) :
    (s.advance timeout time).sigints =
      s.sigints + if timeout < (s.advance timeout time).cmdTime then 1 else 0 := by
  rw [(advance_times s time).2]
  unfold advance
  dsimp only
  split_ifs <;> rfl

/-- The differences of the readings add up to the elapsed time. -/
theorem elapsed_of_ran (ran : runEvents (Loop.iterate timeout) (.start time) rounds = .ok s) :
    s.timeCount1 = lastReading time rounds ∧
      s.cmdTime = toInt64 (lastReading time rounds - getCurrentTime time) := by
  induction rounds using List.reverseRecOn generalizing s with
  | nil =>
    cases ran
    refine ⟨rfl, ?_⟩
    change 0 = toInt64 (getCurrentTime time - getCurrentTime time)
    rw [sub_self, toInt64_of_range (by decide) (by decide)]
  | append_singleton rounds round ih =>
    obtain ⟨t, before, last⟩ := (runEvents_concat_ok _).mp ran
    obtain ⟨reading, elapsed⟩ := ih before
    obtain ⟨-, rfl⟩ := Loop.iterate_ok last
    have now : lastReading time (rounds ++ [round]) = getCurrentTime round.time := by
      simp [lastReading]
    obtain ⟨clock, sum⟩ := @Loop.advance_times timeout (t.receive round) round.time
    obtain ⟨clock_before, sum_before, -⟩ := t.receive_times round
    rw [clock, sum, clock_before, sum_before, reading, elapsed, now, toInt64_add]
    refine ⟨rfl, ?_⟩
    -- The reading before the round cancels.
    congr 1
    ring

theorem lastReading_take {k : ℕ} {round : Round} (here : rounds[k]? = some round) :
    lastReading time (rounds.take (k + 1)) = getCurrentTime round.time := by
  rw [lastReading, List.take_add_one, here]
  simp

theorem LeavesAfterTimeout.take (leaves : LeavesAfterTimeout time timeout rounds) (n : ℕ) :
    LeavesAfterTimeout time timeout (rounds.take n) := by
  intro k round next stay here there
  have within : k + 1 < n := by
    by_contra outside
    rw [List.getElem?_take_eq_none (by omega)] at there
    cases there
  rw [List.getElem?_take_of_lt (by omega)] at here there
  rw [List.take_take, Nat.min_eq_left (by omega)] at stay
  exact leaves k round next stay here there

/-- If the round after the time-out leaves, a run that goes on has sent `SIGINT` at most once,
and then it has just done so. -/
theorem sigints_of_ran (leaves : LeavesAfterTimeout time timeout rounds)
    (ran : runEvents (Loop.iterate timeout) (.start time) rounds = .ok s) :
    s.sigints ≤ 1 ∧ (s.sigints ≠ 0 → rounds ≠ [] ∧ timeout < s.cmdTime) := by
  induction rounds using List.reverseRecOn generalizing s with
  | nil =>
    cases ran
    exact ⟨Nat.zero_le _, fun sent => absurd rfl sent⟩
  | append_singleton rounds round ih =>
    obtain ⟨t, before, last⟩ := (runEvents_concat_ok _).mp ran
    have shorter := leaves.take rounds.length
    rw [List.take_left] at shorter
    obtain ⟨-, just_sent⟩ := ih shorter before
    obtain ⟨goes_on, rfl⟩ := Loop.iterate_ok last
    -- A signal before the last round would have made that round leave.
    have unsent : t.sigints = 0 := by
      by_contra sent
      obtain ⟨some_round, late⟩ := just_sent sent
      obtain ⟨init, previous, rfl⟩ := List.eq_nil_or_concat rounds |>.resolve_left some_round
      rw [List.concat_eq_append] at *
      have elapsed := (elapsed_of_ran before).2
      have reading : lastReading time (init ++ [previous]) = getCurrentTime previous.time := by
        simp [lastReading]
      rw [reading] at elapsed
      refine goes_on (leaves init.length previous round ?_ ?_ ?_ (elapsed ▸ late))
      · rw [List.take_left' (by simp)]
        exact (Loop.output_of_ran before).1
      · simp
      · simp
    have count := @Loop.advance_sigints timeout (t.receive round) round.time
    rw [(t.receive_times round).2.2, unsent] at count
    split_ifs at count with late
    · exact ⟨count.le, fun _ => ⟨by simp, late⟩⟩
    · exact ⟨by omega, fun sent => absurd count sent⟩

end Timeout

/-- **The time-out works exactly if the round after it leaves the loop anyway**: because its
read finds no output, the command has ended, or `select` fails with `EBADF` or `EINTR`. -/
theorem timesOut_iff (time : Timeval) (timeout : ℤ) (rounds : List Round) :
    TimesOut time timeout rounds ↔ LeavesAfterTimeout time timeout rounds := by
  constructor
  · intro times k round next stay here there late
    obtain ⟨s, ran⟩ := @Loop.run_of_stay timeout _ stay (.start time)
    have elapsed := times.elapsed _ s ran
    rw [lastReading_take here] at elapsed
    obtain ⟨t, left⟩ := times.left _ s next ran (Nat.succ_pos k) (by rwa [elapsed]) there
    exact (Loop.iterate_error left).1
  · intro leaves
    refine ⟨fun k s ran => (elapsed_of_ran ran).2, ?_, ?_, fun k s ran =>
      (sigints_of_ran (leaves.take k) ran).1, ?_⟩
    · intro k s ran positive forward
      have upper : lastReading time (rounds.take k) < 2 ^ 63 := toInt64_upper _
      rw [(elapsed_of_ran ran).2]
      exact toInt64_of_range (by omega) (by omega)
    · intro k s next ran positive late there
      obtain ⟨j, rfl⟩ : ∃ j, k = j + 1 := ⟨k - 1, by omega⟩
      have inside := (List.getElem?_eq_some_iff.mp there).1
      have here : rounds[j]? = some rounds[j] := List.getElem?_eq_getElem (by omega)
      have elapsed := (elapsed_of_ran ran).2
      rw [lastReading_take here] at elapsed
      have stay := (Loop.output_of_ran ran).1
      exact ⟨_, Loop.iterate_of_leaves
        (leaves j rounds[j] next stay here there (elapsed ▸ late))⟩
    · intro s left
      obtain ⟨before, round, after, t, rfl, ran, last⟩ := runEvents_error left
      have shorter := leaves.take before.length
      rw [List.take_left] at shorter
      rw [(Loop.iterate_error last).2]
      exact (sigints_of_ran shorter ran).1

/-- A round in which nothing arrives, that ends the given number of seconds after the start. -/
def quiet (seconds : ℕ) : Round where
  select := 0
  errno := 0
  read := none
  kill := 0
  time := { tvSec := seconds, tvUsec := 0 }
  read_le := by
    rintro bytes ⟨⟩

theorem getCurrentTime_seconds {n : ℕ} (small : n < 2 ^ 32) :
    getCurrentTime { tvSec := n, tvUsec := 0 } = n * 1000 := by
  have whole : toInt32 0 = 0 := toInt32_of_range (by decide) (by decide)
  show toInt64 ((n : ℤ) * 1000 + (toInt32 0).tdiv 1000) = n * 1000
  rw [whole, Int.zero_tdiv, add_zero]
  exact toInt64_of_range (by omega) (by omega)

/-- The time-out of one second has passed after two seconds; a second later the command is sent
`SIGINT` again. -/
theorem signals_twice :
    (∃ s, runEvents (Loop.iterate 1000) (.start { tvSec := (0 : ℕ), tvUsec := 0 })
        [quiet 2, quiet 3] = .ok s ∧ s.sigints = 2) ∧
      ¬ TimesOut { tvSec := (0 : ℕ), tvUsec := 0 } 1000 [quiet 2, quiet 3] := by
  set time : Timeval := { tvSec := (0 : ℕ), tvUsec := 0 } with htime
  have zero : getCurrentTime time = 0 := getCurrentTime_seconds (by decide)
  have late {n : ℕ} (some_second : 1 < n) (small : n < 2 ^ 32) {before : List Round} {s : Loop}
      (ran : runEvents (Loop.iterate 1000) (.start time) (before ++ [quiet n]) = .ok s) :
      1000 < s.cmdTime := by
    have reading : lastReading time (before ++ [quiet n]) = n * 1000 := by
      rw [lastReading, List.getLast?_concat]
      exact getCurrentTime_seconds small
    rw [(elapsed_of_ran ran).2, reading, zero, toInt64_of_range (by omega) (by omega)]
    omega
  obtain ⟨s₁, ran₁⟩ := @Loop.run_of_stay 1000 ([] ++ [quiet 2]) (by decide) (.start time)
  obtain ⟨s₂, ran₂⟩ := @Loop.run_of_stay 1000 ([quiet 2] ++ [quiet 3]) (by decide) (.start time)
  have late₁ := late (by decide) (by decide) ran₁
  have late₂ := late (by decide) (by decide) ran₂
  -- Neither round leaves the loop, and both end too late.
  have twice : s₂.sigints = 2 := by
    obtain ⟨t₁, before₁, last₁⟩ := (runEvents_concat_ok _).mp ran₁
    obtain ⟨t₂, before₂, last₂⟩ := (runEvents_concat_ok _).mp ran₂
    obtain rfl : s₁ = t₂ := Except.ok.inj (ran₁.symm.trans before₂)
    obtain rfl : Loop.start time = t₁ := Except.ok.inj before₁
    obtain ⟨-, rfl⟩ := Loop.iterate_ok last₁
    obtain ⟨-, rfl⟩ := Loop.iterate_ok last₂
    rw [Loop.advance_sigints, if_pos late₂, (Loop.receive_times _ _).2.2, Loop.advance_sigints,
      if_pos late₁]
    rfl
  refine ⟨⟨s₂, ran₂, twice⟩, fun times => ?_⟩
  have once := times.once_running 2 s₂ ran₂
  omega

end LinuxProgram.Popen
