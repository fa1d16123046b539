import LinuxProgram.Base.Loops
import LinuxProgram.Base.Text
import LinuxProgram.NetInterface.NatRules
import Mathlib.Tactic.IntervalCases

/-!
# The control channel of the namespace child

`main` tells the child over a stream socket that its interface is there, by `network`, and that
it is to end, by `stop`. `child_main` reads into a buffer of ten bytes, which it clears only once.
After the set-up it waits in a loop, and leaves the loop if what it has read does *not* start with
`stop`.

A stream socket may deliver the two messages in any pieces. What the child does then depends on
the pieces: it lives forever on a `stop` that comes alone, and ends on any other piece.

## Main definitions

* `childMain` — the code, read by read
* `Delivery` — the ways in which the two messages may arrive
* `Obeys` — the child sets up the network once and ends at `stop`

## Main result

* `obeys_iff` — the deliveries with which it does
-/

namespace LinuxProgram.NetworkCode

open Base

open NetInterface (InAddr)

/-! ### The code -/

/-- `struct network_param`, without the socket. -/
structure NetworkParam where
  prefixlen : ℤ
  addr : InAddr
  bcast : InAddr
  gateway : InAddr
  ethName : List UInt8

/-- What the child does to the network. The results are not looked at. -/
inductive Action
  | networkDevUp (name : List UInt8)
  | ipv4AddrAdd (name : List UInt8) (addr bcast : InAddr) (prefixlen : ℤ)
  | addDefaultRoute (gateway : InAddr)
  | system (command : List UInt8)

/-- The set-up. -/
def setUp (param : NetworkParam) : List Action :=
  [.networkDevUp (ascii "lo"),
    .ipv4AddrAdd param.ethName param.addr param.bcast param.prefixlen,
    .networkDevUp param.ethName,
    .addDefaultRoute param.gateway,
    .system (ascii "ifconfig"),
    .system (ascii "route")]

/-- The two places at which the child reads. -/
inductive Place
  | first
  | waiting
  deriving DecidableEq

/-- How the child ends: `exit(0)`, `return 0` after a failed `fork`, or `execl` in the process
that `fork` has made. -/
inductive Ending
  | exit
  | returned
  | exec
  deriving DecidableEq

/-- The child before a read. -/
structure Child where
  buf : List UInt8
  place : Place
  actions : List Action

/-- The child once it has ended, with the place of the last read. -/
structure Ended where
  place : Place
  ending : Ending
  actions : List Action

/-- `char buf[10] = {0};` -/
def Child.start : Child := ⟨List.replicate 10 0, .first, []⟩

/-- `read(param->socket, buf, sizeof(buf))`. At the end of the stream nothing is read. -/
def readInto (buf bytes : List UInt8) : List UInt8 := bytes ++ buf.drop bytes.length

/-- From one read to the next. -/
def Child.next (param : NetworkParam) (fork : ℤ) (s : Child) (bytes : List UInt8) :
    Except Ended Child :=
  let buf := readInto s.buf bytes
  match s.place with
  | .first =>
    if strncmp buf (ascii "network") 7 ≠ 0 then .error ⟨.first, .exit, s.actions⟩
    else
      let actions := s.actions ++ setUp param
      if fork < 0 then .error ⟨.first, .returned, actions⟩
      else if fork = 0 then .error ⟨.first, .exec, actions⟩
      else .ok ⟨buf, .waiting, actions⟩
  | .waiting =>
    -- Everything but `stop` ends the child.
    if strncmp buf (ascii "stop") 4 ≠ 0 then .error ⟨.waiting, .exit, s.actions⟩
    else .ok { s with buf }

/-- `child_main`, as far as the given reads go. -/
def childMain (param : NetworkParam) (fork : ℤ) (reads : List (List UInt8)) :
    Except Ended Child :=
  runEvents (Child.next param fork) .start reads

/-- What has been done to the network. -/
def actions : Except Ended Child → List Action
  | .ok s => s.actions
  | .error e => e.actions

/-! ### Deliveries -/

/-- `"network"` and `"stop"`, as the parent writes them. -/
def messages : List UInt8 := ascii "network" ++ ascii "stop"

theorem messages_length : messages.length = 11 := rfl

/-- A way in which the messages may arrive at reads of at most ten bytes. -/
structure Delivery where
  chunks : List (List UInt8)
  nonempty : ∀ c ∈ chunks, c ≠ []
  small : ∀ c ∈ chunks, c.length ≤ 10
  stream : chunks.flatten = messages

/-- The child sets up the network once, however often it reads the end of the stream. It does not
leave its loop before all bytes have arrived, and it has left it when they have. -/
structure Obeys (param : NetworkParam) (fork : ℤ) (d : Delivery) : Prop where
  sets_up : ∀ n, actions (childMain param fork (d.chunks ++ List.replicate n [])) = setUp param
  waits : ∀ k e, childMain param fork (d.chunks.take k) = .error e → e.place = .waiting →
    (d.chunks.take k).flatten = messages
  leaves : ∃ e, childMain param fork d.chunks = .error e ∧ e.place = .waiting

/-! ### The two tests -/

/-- The first read suffices if it brings the whole first message. -/
theorem first_test {n : ℕ} (some_byte : 0 < n) (small : n ≤ 10) :
    strncmp (readInto (List.replicate 10 0) (messages.take n)) (ascii "network") 7 = 0 ↔
      7 ≤ n := by
  interval_cases n <;> decide

/-- The second read keeps the child waiting if it brings `stop` and nothing else has come with
the first message. -/
theorem second_test {n k : ℕ} (lower : 7 ≤ n) (small : n ≤ 10) (some_byte : 0 < k)
    (inside : n + k ≤ 11) :
    strncmp (readInto (readInto (List.replicate 10 0) (messages.take n))
      ((messages.drop n).take k)) (ascii "stop") 4 = 0 ↔ n = 7 ∧ k = 4 := by
  have upper : k ≤ 4 := by omega
  interval_cases n <;> interval_cases k <;> first | omega | decide

/-! ### The first two pieces -/

section Pieces

variable {param : NetworkParam} {fork : ℤ}

/-- A delivery has at least two pieces. -/
theorem Delivery.pieces (d : Delivery) : ∃ n k rest,
    d.chunks = messages.take n :: (messages.drop n).take k :: rest ∧
      0 < n ∧ n ≤ 10 ∧ 0 < k ∧ n + k ≤ 11 ∧ (n + k = 11 ↔ rest = []) := by
  obtain ⟨chunks, nonempty, small, stream⟩ := d
  cases chunks with
  | nil => cases stream
  | cons first chunks =>
    have first_small := small first List.mem_cons_self
    cases chunks with
    | nil =>
      have length := congrArg List.length stream
      simp only [List.flatten_cons, List.flatten_nil, List.append_nil, messages_length] at length
      omega
    | cons second rest =>
      rw [List.flatten_cons, List.flatten_cons] at stream
      have first_some := List.length_pos_iff.mpr (nonempty first List.mem_cons_self)
      have second_some := List.length_pos_iff.mpr (nonempty second (by simp))
      have length := congrArg List.length stream
      rw [List.length_append, List.length_append, messages_length] at length
      refine ⟨first.length, second.length, rest, ?_, first_some, first_small, second_some,
        by omega, ?_⟩
      · rw [← stream, List.take_left, List.drop_left, List.take_left]
      · constructor
        · intro all
          cases rest with
          | nil => rfl
          | cons third rest =>
            have third_some := List.length_pos_iff.mpr (nonempty third (by simp))
            rw [List.flatten_cons, List.length_append] at length
            omega
        · rintro rfl
          rw [List.flatten_nil, List.length_nil] at length
          omega

/-- What the first read leads to. -/
theorem Child.next_start (bytes : List UInt8) : Child.next param fork .start bytes =
    if strncmp (readInto (List.replicate 10 0) bytes) (ascii "network") 7 ≠ 0 then
      .error ⟨.first, .exit, []⟩
    else if fork < 0 then .error ⟨.first, .returned, setUp param⟩
    else if fork = 0 then .error ⟨.first, .exec, setUp param⟩
    else .ok ⟨readInto (List.replicate 10 0) bytes, .waiting, setUp param⟩ := rfl

/-- After a first piece that is long enough, in the process that has forked. -/
theorem childMain_first {n : ℕ} (lower : 7 ≤ n) (small : n ≤ 10) (forked : 0 < fork)
    (reads : List (List UInt8)) :
    childMain param fork (messages.take n :: reads) = runEvents (Child.next param fork)
      ⟨readInto (List.replicate 10 0) (messages.take n), .waiting, setUp param⟩ reads := by
  have test := (first_test (by omega) small).mpr lower
  rw [childMain, runEvents_cons, Child.next_start, if_neg (not_not.mpr test),
    if_neg (not_lt.mpr forked.le), if_neg forked.ne']
  rfl

/-- Otherwise the child ends with the first read. -/
theorem childMain_early {n : ℕ} (some_byte : 0 < n) (small : n ≤ 10) (early : n < 7 ∨ fork ≤ 0)
    (reads : List (List UInt8)) :
    ∃ e, childMain param fork (messages.take n :: reads) = .error e ∧ e.place = .first := by
  have test := first_test some_byte small
  have ended : ∃ e, Child.next param fork .start (messages.take n) = .error e ∧
      e.place = .first := by
    by_cases lower : 7 ≤ n
    · have failed : fork ≤ 0 := early.resolve_left (by omega)
      rw [Child.next_start, if_neg (not_not.mpr (test.mpr lower))]
      rcases failed.lt_or_eq with negative | rfl
      · exact ⟨_, if_pos negative, rfl⟩
      · exact ⟨_, rfl, rfl⟩
    · rw [Child.next_start, if_pos (test.not.mpr lower)]
      exact ⟨_, rfl, rfl⟩
  obtain ⟨e, ran, place⟩ := ended
  refine ⟨e, ?_, place⟩
  rw [childMain, runEvents_cons, ran]
  rfl

/-- The second piece ends the loop unless it is `stop`. -/
theorem childMain_second {n k : ℕ} (lower : 7 ≤ n) (small : n ≤ 10) (some_byte : 0 < k)
    (inside : n + k ≤ 11) (other : ¬ (n = 7 ∧ k = 4)) (forked : 0 < fork)
    (reads : List (List UInt8)) :
    childMain param fork (messages.take n :: (messages.drop n).take k :: reads) =
      .error ⟨.waiting, .exit, setUp param⟩ := by
  have test := (second_test lower small some_byte inside).not.mpr other
  rw [childMain_first lower small forked, runEvents_cons, Child.next]
  simp only [ne_eq, test, not_false_eq_true, if_true]
  rfl

/-- A child that has got `stop` by itself stays in its loop at the end of the stream. -/
theorem childMain_stop (forked : 0 < fork) (n : ℕ) :
    ∃ s, childMain param fork (messages.take 7 :: (messages.drop 7).take 4 ::
      List.replicate n []) = .ok s := by
  have stays : ∀ n, runEvents (Child.next param fork)
      ⟨ascii "stopork" ++ [0, 0, 0], .waiting, setUp param⟩ (List.replicate n []) =
        .ok ⟨ascii "stopork" ++ [0, 0, 0], .waiting, setUp param⟩ := by
    intro n
    induction n with
    | zero => rfl
    | succ n ih => exact ih
  rw [childMain_first (by decide) (by decide) forked]
  exact ⟨_, stays n⟩

end Pieces

section Deliveries

variable {param : NetworkParam} {fork : ℤ} {n k : ℕ} {d : Delivery} {rest : List (List UInt8)}

theorem pieces_length (inside : n + k ≤ 11) :
    (messages.take n).length = n ∧ ((messages.drop n).take k).length = k := by
  rw [List.length_take, List.length_take, List.length_drop, messages_length]
  omega

/-- A child that has left its loop got the whole first message at once, in a process that has
forked. -/
theorem Obeys.late (obeys : Obeys param fork d)
    (pieces : d.chunks = messages.take n :: (messages.drop n).take k :: rest)
    (first_some : 0 < n) (first_small : n ≤ 10) : 7 ≤ n ∧ 0 < fork := by
  by_contra early
  obtain ⟨e, ran, place⟩ := obeys.leaves
  obtain ⟨e', ran', first⟩ := @childMain_early param fork n first_some first_small
    (by omega) ((messages.drop n).take k :: rest)
  rw [pieces] at ran
  obtain rfl := Except.error.inj (ran.symm.trans ran')
  exact absurd (place.symm.trans first) (by decide)

/-- It does not obey if each message comes by itself. -/
theorem Obeys.not_stop (obeys : Obeys param fork d) (forked : 0 < fork) :
    d.chunks ≠ [messages.take 7, (messages.drop 7).take 4] := by
  intro stop
  obtain ⟨e, ran, -⟩ := obeys.leaves
  obtain ⟨s, waiting⟩ := @childMain_stop param fork forked 0
  rw [stop] at ran
  exact absurd (ran.symm.trans waiting) (by rintro ⟨⟩)

/-- Two pieces of which the first contains a part of `stop` make the child obey. -/
theorem obeys_of_two (two : d.chunks = [messages.take n, (messages.drop n).take k])
    (lower : 8 ≤ n) (small : n ≤ 10) (some_byte : 0 < k) (inside : n + k ≤ 11)
    (forked : 0 < fork) : Obeys param fork d := by
  have left (reads : List (List UInt8)) := @childMain_second param fork n k (by omega)
    small some_byte inside (by omega) forked reads
  refine ⟨fun m => ?_, fun j e ran place => ?_, _, by rw [two]; exact left [], rfl⟩
  · rw [two]
    exact congrArg actions (left _)
  · -- With one piece or none the child is still waiting.
    rcases Nat.lt_or_ge j 2 with early | late
    · have start : ∃ s, childMain param fork (d.chunks.take j) = .ok s := by
        rw [two]
        interval_cases j
        · exact ⟨_, rfl⟩
        · rw [List.take_succ_cons, List.take_zero, childMain_first (by omega) small forked]
          exact ⟨_, rfl⟩
      obtain ⟨s, waiting⟩ := start
      exact absurd (ran.symm.trans waiting) (by rintro ⟨⟩)
    · rw [List.take_of_length_le (by rw [two]; exact late)]
      exact d.stream

end Deliveries

/-- The child obeys exactly if `fork` succeeds and the messages come in two pieces of which the
first has the whole first message and the beginning of the second. -/
theorem obeys_iff (param : NetworkParam) (fork : ℤ) (d : Delivery) :
    Obeys param fork d ↔
      0 < fork ∧ ∃ first last, d.chunks = [first, last] ∧ 8 ≤ first.length := by
  obtain ⟨n, k, rest, pieces, first_some, first_small, second_some, inside, all⟩ := d.pieces
  obtain ⟨first_length, second_length⟩ := pieces_length inside
  constructor
  · intro obeys
    obtain ⟨lower, forked⟩ := obeys.late pieces first_some first_small
    have other : ¬ (n = 7 ∧ k = 4) := by
      rintro ⟨rfl, rfl⟩
      rw [all.mp rfl] at pieces
      exact obeys.not_stop forked pieces
    -- The child leaves with the second piece, which must have been the last.
    have left := obeys.waits 2 _ (by
      rw [pieces]
      exact childMain_second lower first_small second_some inside other forked []) rfl
    rw [pieces] at left
    have length : n + k = 11 := by
      have total := congrArg List.length left
      simpa [first_length, second_length, messages_length, -List.length_take, -List.length_drop]
        using total
    exact ⟨forked, _, _, pieces.trans (by rw [all.mp length]), by omega⟩
  · rintro ⟨forked, first, last, two, lower⟩
    obtain ⟨rfl, rfl, rfl⟩ : messages.take n = first ∧ (messages.drop n).take k = last ∧
        rest = [] := by
      rw [pieces] at two
      simpa using two
    exact obeys_of_two two (by omega) first_small second_some inside forked

/-- The set-up of the guest. -/
def guestParam : NetworkParam where
  prefixlen := 24
  addr := ⟨172, 16, 0, 2⟩
  bcast := ⟨172, 16, 0, 255⟩
  gateway := ⟨172, 16, 0, 1⟩
  ethName := ascii "v_i"

/-- Each message by itself. -/
def oneByOne : Delivery where
  chunks := [ascii "network", ascii "stop"]
  nonempty := by decide
  small := by decide
  stream := rfl

/-- If each message comes by itself, the child never ends. -/
theorem oneByOne_stays : (∀ n, ∃ s, childMain guestParam 1 (oneByOne.chunks ++
    List.replicate n []) = .ok s) ∧ ¬ Obeys guestParam 1 oneByOne := by
  refine ⟨fun n => childMain_stop (by decide) n, fun obeys => ?_⟩
  obtain ⟨e, ran, -⟩ := obeys.leaves
  obtain ⟨s, waiting⟩ := @childMain_stop guestParam 1 (by decide) 0
  exact absurd (ran.symm.trans waiting) (by rintro ⟨⟩)

end LinuxProgram.NetworkCode
