import LinuxProgram.Base.Reading
import LinuxProgram.Netlink.ParseInfo

/-!
# The bytes that the message walk looks at

The walk of `nl_parse_info` over a datagram is driven by length fields of the datagram itself.
Here it is written as a program that reads the buffer field by field, in the order of the
source. It runs like the loop of `Netlink.parseStep` (`run_messageWalk`), and what it reads can
be held against the number of bytes received.

The error code of a message of type `NLMSG_ERROR` is read before the length of the message is
looked at. So a message of this type needs four bytes behind its header, and nothing else does
(`messageWalk_contained_iff`). That the walk terminates inside the received bytes and does not
depend on others is `Base.Reading.Contained`.

## Main definitions

* `messageWalk` — the walk as a program that reads
* `Reached` — where messages start, as far as the walk goes
* `CodesReceived` — the error code of every reached message was received

## Main results

* `messageWalk_contained_iff` — the walk is contained if and only if all codes were received
-/

namespace LinuxProgram.GetAddr

open Base Netlink

/-! ### The walk -/

/-- `NLMSG_OK(h, len)`. -/
def testNlmsg {ε : Type} (c : ℕ × ℤ) : Reading Unit ε Bool :=
  if 16 ≤ c.2 then do
    let len ← .num () c.1 4
    if 16 ≤ len then do
      let len ← .num () c.1 4
      return decide (len ≤ toUInt32 c.2)
    else return false
  else return false

/-- `NLMSG_NEXT(h, len)`. -/
def nextNlmsg {ε : Type} (c : ℕ × ℤ) : Reading Unit ε (ℕ × ℤ) := do
  let len ← .num () c.1 4
  return (c.1 + alignU32 len, toInt32 ((toUInt32 c.2 : ℤ) - alignU32 len))

section Walk

variable {σ : Type} (filter : SockaddrNl → List UInt8 → σ → ℤ × σ) (own : Bool) (cmdPid : ℕ)
  (snl : SockaddrNl)

/-- The call of the filter, which gets the bytes of the message. -/
def callFilter (h : ℕ) (s : ParseInfo σ) : Reading Unit (ParseResult σ) (ParseInfo σ) := do
  let len ← .num () h 4
  .read () h len fun bytes => return s.call filter snl bytes

/-- The report of an error: its code, and the type, the sequence number and the port of the
request that caused it. -/
def reportError {ε : Type} (h : ℕ) : Reading Unit ε (ℕ × ℕ × ℕ × ℕ) := do
  let error ← .num () (h + 16) 4
  let type ← .num () (h + 24) 2
  let seq ← .num () (h + 28) 4
  let pid ← .num () (h + 32) 4
  return (error, type, seq, pid)

/-- The body of the loop. -/
def walkBody (c : ℕ × ℤ) (s : ParseInfo σ) : Reading Unit (ParseResult σ) (ParseInfo σ) := do
  let h := c.1
  let type ← .num () (h + 4) 2
  if type = nlmsgDone then .done (s.exit s.ret)
  else do
    let type ← .num () (h + 4) 2
    if type = nlmsgError then do
      let error ← .num () (h + 16) 4
      if toInt32 error = 0 then do
        let flags ← .num () (h + 6) 2
        if flags &&& nlmFMulti = 0 then .done (s.exit 0) else return s
      else do
        let len ← .num () h 4
        if len < nlmsgerrLength then .done (s.exit (-1))
        else do
          let _ ← reportError h
          .done (s.exit (-1))
    else if own then callFilter filter snl h s
    else do
      let pid ← .num () (h + 12) 4
      if pid = cmdPid then return s else callFilter filter snl h s

/-- The loop over the messages of a datagram of `status` bytes. -/
def messageWalk (status : ℕ) (s : ParseInfo σ) :
    Reading Unit (ParseResult σ) ((ℕ × ℤ) × ParseInfo σ) :=
  .loop testNlmsg nextNlmsg (walkBody filter own cmdPid snl) (status + 1) (0, status) s

end Walk

section Run

variable {ε σ : Type} {filter : SockaddrNl → List UInt8 → σ → ℤ × σ} {own : Bool} {cmdPid : ℕ}
  {snl : SockaddrNl} {buf : Memory} {c : ℕ × ℤ} {s : ParseInfo σ}

theorem run_testNlmsg (c : ℕ × ℤ) :
    (testNlmsg c : Reading Unit ε Bool).run buf = some (.ok ((nlmsgCursor buf).ok c)) := by
  change (testNlmsg c : Reading Unit ε Bool).run buf = some (.ok (nlmsgOk buf c.1 c.2))
  have len : leNat (buf.read c.1 4) = nlmsgLen buf c.1 := rfl
  simp only [testNlmsg, nlmsgOk, Reading.run_ite, Reading.run_num_bind, Reading.run_pure, len]
  exact Reading.ok_ite_ite

theorem run_nextNlmsg (c : ℕ × ℤ) :
    (nextNlmsg c : Reading Unit ε (ℕ × ℤ)).run buf = some (.ok ((nlmsgCursor buf).next c)) :=
  rfl

theorem run_walkBody (c : ℕ × ℤ) (s : ParseInfo σ) :
    (walkBody filter own cmdPid snl c s).run buf =
      some (parseBody filter own cmdPid snl buf c s) := by
  have type : leNat (buf.read (c.1 + 4) 2) = nlmsgType buf c.1 := rfl
  have flags : leNat (buf.read (c.1 + 6) 2) = nlmsgFlags buf c.1 := rfl
  have pid : leNat (buf.read (c.1 + 12) 4) = nlmsgPid buf c.1 := rfl
  have code : toInt32 (leNat (buf.read (c.1 + 16) 4)) = nlmsgerrError buf c.1 := rfl
  have report : (reportError c.1 >>= fun _ => .done (s.exit (-1)) : Reading Unit _ _).run buf =
      some (s.exit (-1)) := rfl
  have call : (callFilter filter snl c.1 s).run buf =
      some (.ok (s.call filter snl (buf.read c.1 (nlmsgLen buf c.1)))) := rfl
  simp only [walkBody, parseBody, Reading.run_ite, Reading.run_num_bind, Reading.run_pure,
    Reading.run_done, type, flags, pid, code, report, call, ite_self, apply_ite some]
  cases own <;> simp

/-- The program runs like the loop that `parseStep` goes through. -/
theorem run_messageWalk (status : ℕ) (s : ParseInfo σ) :
    (messageWalk filter own cmdPid snl status s).run buf =
      some ((nlmsgCursor buf).forEach (parseBody filter own cmdPid snl buf) (0, status) s) :=
  Reading.run_loop run_testNlmsg (fun c _ => run_nextNlmsg c) (fun c s _ => run_walkBody c s)
    (show (status : ℤ).toNat < status + 1 by omega)

end Run

/-! ### Where the walk goes -/

/-- A message is announced at `h` that ends within `status` bytes. -/
def Fits (m : Memory) (status h : ℕ) : Prop := 16 ≤ nlmsgLen m h ∧ h + nlmsgLen m h ≤ status

/-- The walk does not end with the message at `h`. -/
def GoesOn (m : Memory) (h : ℕ) : Prop :=
  nlmsgType m h ≠ nlmsgDone ∧
    (nlmsgType m h = nlmsgError → nlmsgerrError m h = 0 ∧ nlmsgFlags m h &&& nlmFMulti ≠ 0)

/-- The offsets that the walk comes to. -/
inductive Reached (m : Memory) (status : ℕ) : ℕ → Prop
  | start : Reached m status 0
  | next {h : ℕ} (reached : Reached m status h) (fits : Fits m status h) (goesOn : GoesOn m h) :
    Reached m status (h + alignUp (nlmsgLen m h))

/-- Every message of type `NLMSG_ERROR` that the walk comes to has four more bytes behind its
header. -/
def CodesReceived (m : Memory) (status : ℕ) : Prop :=
  ∀ h, Reached m status h → Fits m status h → nlmsgType m h = nlmsgError → h + 20 ≤ status

section Reads

variable {ε σ : Type} {filter : SockaddrNl → List UInt8 → σ → ℤ × σ} {own : Bool} {cmdPid : ℕ}
  {snl : SockaddrNl} {buf : Memory} {c : ℕ × ℤ} {s : ParseInfo σ} {status : ℕ}

/-- The remaining length counts from the position to the end of the datagram. -/
theorem ok_iff_fits (small : status < 2 ^ 31) (counts : (c.1 : ℤ) + c.2 = status) :
    (nlmsgCursor buf).ok c = true ↔ Fits buf status c.1 := by
  rw [nlmsgCursor_ok rfl (by omega), Fits]
  omega

theorem next_of_fits (small : status < 2 ^ 31) (counts : (c.1 : ℤ) + c.2 = status)
    (fits : Fits buf status c.1) :
    (nlmsgCursor buf).next c =
      (c.1 + alignUp (nlmsgLen buf c.1), c.2 - alignUp (nlmsgLen buf c.1)) := by
  obtain ⟨-, inside⟩ := fits
  exact nlmsgCursor_next rfl (by omega) (by omega)

theorem safe_testNlmsg (counts : (c.1 : ℤ) + c.2 = status) :
    (testNlmsg c : Reading Unit ε Bool).Safe (fun _ off n => off + n ≤ status) buf := by
  simp only [testNlmsg, Reading.safe_ite, Reading.safe_num_bind, Reading.safe_pure]
  split_ifs with positive header
  · exact ⟨by omega, by omega, trivial⟩
  · exact ⟨by omega, trivial⟩

/-- Only the error code may lie behind the message that it belongs to. -/
theorem safe_walkBody (fits : Fits buf status c.1) :
    (walkBody filter own cmdPid snl c s).Safe (fun _ off n => off + n ≤ status) buf ↔
      (nlmsgType buf c.1 = nlmsgError → c.1 + 20 ≤ status) := by
  obtain ⟨header, inside⟩ := fits
  have type : leNat (buf.read (c.1 + 4) 2) = nlmsgType buf c.1 := rfl
  have len : leNat (buf.read c.1 4) = nlmsgLen buf c.1 := rfl
  have call : (callFilter filter snl c.1 s).Safe (fun _ off n => off + n ≤ status) buf :=
    ⟨by omega, inside, trivial⟩
  have report (long : nlmsgerrLength ≤ nlmsgLen buf c.1) :
      (reportError c.1 >>= fun _ => .done (s.exit (-1)) : Reading Unit _ _).Safe
        (fun _ off n => off + n ≤ status) buf := by
    rw [nlmsgerrLength] at long
    exact ⟨by omega, by omega, by omega, by omega, trivial⟩
  simp only [walkBody, Reading.safe_num_bind, Reading.safe_ite, Reading.safe_done,
    Reading.safe_pure, type, len, call, ite_self, and_true]
  by_cases done : nlmsgType buf c.1 = nlmsgDone
  · rw [if_pos done, done]
    exact iff_of_true ⟨by omega, trivial⟩ fun error => absurd error (by decide)
  by_cases error : nlmsgType buf c.1 = nlmsgError
  · rw [if_neg done, if_pos error]
    constructor
    · rintro ⟨-, -, code, -⟩ -
      exact code
    · intro code
      refine ⟨by omega, by omega, code error, ?_⟩
      split_ifs with ack short
      · omega
      · exact ⟨by omega, trivial⟩
      · exact ⟨by omega, report (Nat.le_of_not_lt short)⟩
  · rw [if_neg done, if_neg error]
    refine iff_of_true ⟨by omega, by omega, ?_⟩ fun is_error => absurd is_error error
    split_ifs
    omega

theorem parseBody_ok_iff : (∃ s', parseBody filter own cmdPid snl buf c s = .ok s') ↔
    GoesOn buf c.1 := by
  unfold parseBody GoesOn ParseInfo.exit
  by_cases done : nlmsgType buf c.1 = nlmsgDone
  · simp [done]
  by_cases error : nlmsgType buf c.1 = nlmsgError
  · by_cases ack : nlmsgerrError buf c.1 = 0
    · by_cases last : nlmsgFlags buf c.1 &&& nlmFMulti = 0 <;>
        simp [error, ack, last, nlmsgError, nlmsgDone]
    · simp [error, ack, nlmsgError, nlmsgDone]
  · simp only [done, error, if_false, ne_eq, not_false_eq_true, false_imp_iff, and_self, iff_true]
    split_ifs
    · exact ⟨s, rfl⟩
    · exact ⟨_, rfl⟩

/-- A safe walk is safe from every offset that it comes to. -/
theorem safe_of_reached (small : status < 2 ^ 31)
    (safe : (messageWalk filter own cmdPid snl status s).Safe (fun _ off n => off + n ≤ status) buf)
    {h : ℕ} (reached : Reached buf status h) :
    ∃ (fuel : ℕ) (len : ℤ) (t : ParseInfo σ), (h : ℤ) + len = status ∧
      (Reading.loop testNlmsg nextNlmsg (walkBody filter own cmdPid snl) fuel (h, len) t).Safe
        (fun _ off n => off + n ≤ status) buf := by
  induction reached with
  | start => exact ⟨status + 1, status, s, by omega, safe⟩
  | @next h reached fits goesOn ih =>
    obtain ⟨fuel, len, t, counts, safe⟩ := ih
    cases fuel with
    | zero => cases safe
    | succ fuel =>
      have round := (Reading.safe_loop_succ (run_testNlmsg _) (fun _ => run_nextNlmsg _)
        fun _ => run_walkBody _ _).mp safe
      obtain ⟨t', ran⟩ : ∃ t', parseBody filter own cmdPid snl buf (h, len) t = .ok t' :=
        parseBody_ok_iff.mpr goesOn
      have rest := ((round.2 ((ok_iff_fits small counts).mpr fits)).2 t' ran).2
      rw [next_of_fits small counts fits] at rest
      exact ⟨fuel, _, t', by dsimp only; omega, rest⟩

/-- The walk stays inside the datagram if and only if all error codes were received. -/
theorem safe_messageWalk_iff (small : status < 2 ^ 31) :
    (messageWalk filter own cmdPid snl status s).Safe (fun _ off n => off + n ≤ status) buf ↔
      CodesReceived buf status := by
  constructor
  · intro safe h reached fits error
    obtain ⟨fuel, len, t, counts, safe⟩ := safe_of_reached small safe reached
    cases fuel with
    | zero => cases safe
    | succ fuel =>
      have round := (Reading.safe_loop_succ (run_testNlmsg _) (fun _ => run_nextNlmsg _)
        fun _ => run_walkBody _ _).mp safe
      exact (safe_walkBody fits).mp (round.2 ((ok_iff_fits small counts).mpr fits)).1 error
  · intro codes
    refine Reading.safe_loop (fun c _ => (c.1 : ℤ) + c.2 = status ∧ Reached buf status c.1)
      run_testNlmsg (fun c _ => run_nextNlmsg c) (fun c s _ => run_walkBody c s)
      (fun c _ inv => safe_testNlmsg inv.1) ?_ (show (status : ℤ).toNat < status + 1 by omega)
      ⟨by simp, .start⟩
    rintro c s ⟨counts, reached⟩ ok
    have fits := (ok_iff_fits small counts).mp ok
    refine ⟨(safe_walkBody fits).mpr (codes c.1 reached fits), fun s' ran => ⟨?_, ?_⟩⟩
    · exact ⟨by have := fits.1; have := fits.2; omega, trivial⟩
    · rw [next_of_fits small counts fits]
      exact ⟨by dsimp only; omega, reached.next fits (parseBody_ok_iff.mp ⟨s', ran⟩)⟩

end Reads

/-- The message walk of `nl_parse_info` terminates inside the received datagram, whatever the
rest of the buffer contains, if and only if the datagram contains the error code of every
message of type `NLMSG_ERROR` that the walk comes to. -/
theorem messageWalk_contained_iff {σ : Type} {filter : SockaddrNl → List UInt8 → σ → ℤ × σ}
    {own : Bool} {cmdPid : ℕ} {snl : SockaddrNl} {s : ParseInfo σ} {data : List UInt8}
    (status : data.length ≤ bufSize) :
    (messageWalk filter own cmdPid snl data.length s).Contained data ↔
      CodesReceived (Memory.write (fun _ => 0) 0 data) data.length := by
  have small : data.length < 2 ^ 31 := by
    rw [bufSize] at status
    omega
  rw [← safe_messageWalk_iff small]
  exact ⟨fun contained => contained.inside _, Reading.contained_of_safe _⟩

/-- A filter that accepts every message. -/
def acceptAll (_ : SockaddrNl) (_ : List UInt8) (arg : Unit) : ℤ × Unit := (0, arg)

/-- The address of the kernel. -/
def kernel : SockaddrNl := { nlFamily := 16, nlPid := 0, nlGroups := 0 }

/-- The acknowledgement of a request, complete. -/
def wholeAck : Message := .make nlmsgError 0 (List.replicate 20 0) (by decide)

theorem messageWalk_contained_iff_ack :
    wholeAck.bytes.length ≤ bufSize ∧
      (messageWalk acceptAll true 7 kernel wholeAck.bytes.length
        { ret := 0, arg := (), calls := [] }).Contained wholeAck.bytes := by
  have status : wholeAck.bytes.length ≤ bufSize := by decide
  refine ⟨status, (messageWalk_contained_iff status).mpr ?_⟩
  -- The walk ends with the first message.
  have last : ¬ GoesOn (Memory.write (fun _ => 0) 0 wholeAck.bytes) 0 := fun goesOn =>
    (goesOn.2 (by decide)).2 (by decide)
  have first {h : ℕ} (reached : Reached (Memory.write (fun _ => 0) 0 wholeAck.bytes)
      wholeAck.bytes.length h) : h = 0 := by
    induction reached with
    | start => rfl
    | next reached fits goesOn ih =>
      subst ih
      exact absurd goesOn last
  intro h reached _ _
  obtain rfl := first reached
  decide

theorem bare_header_lt : 16 + ([] : List UInt8).length < 2 ^ 32 := by decide

/-- An error message of which only the header was received. -/
def bareError : Message := .make nlmsgError 0 [] bare_header_lt

/-- The error code is read from what the buffer contained before: with zeros there the message
counts as an acknowledgement, with ones as an error. -/
theorem bareError_not_contained :
    ¬ (messageWalk acceptAll true 7 kernel bareError.bytes.length
        { ret := 0, arg := (), calls := [] }).Contained bareError.bytes ∧
      (messageWalk acceptAll true 7 kernel bareError.bytes.length
        { ret := 0, arg := (), calls := [] }).run (Memory.write (fun _ => 0) 0 bareError.bytes) =
          some (.error { value := 0, arg := (), calls := [] }) ∧
      (messageWalk acceptAll true 7 kernel bareError.bytes.length
        { ret := 0, arg := (), calls := [] }).run (Memory.write (fun _ => 255) 0 bareError.bytes) =
          some (.error { value := -1, arg := (), calls := [] }) := by
  have zeros : nlmsgerrError (Memory.write (fun _ => 0) 0 bareError.bytes) 0 = 0 :=
    toInt32_of_range (n := 0) (by decide) (by decide)
  have ones : nlmsgerrError (Memory.write (fun _ => 255) 0 bareError.bytes) 0 = -1 :=
    show toInt32 (toUInt32 (-1)) = -1 from toInt32_toUInt32 (by decide) (by decide)
  refine ⟨fun contained => ?_, ?_, ?_⟩
  · have codes := (safe_messageWalk_iff (by decide)).mp (contained.inside fun _ => 0)
    exact absurd (codes 0 .start ⟨by decide, by decide⟩ (by decide)) (by decide)
  · rw [run_messageWalk, Cursor.forEach_step _ _ (by decide), parseBody]
    dsimp only
    rw [if_neg (by decide), if_pos (by decide), if_pos zeros, if_pos (by decide)]
    rfl
  · rw [run_messageWalk, Cursor.forEach_step _ _ (by decide), parseBody]
    dsimp only
    rw [if_neg (by decide), if_pos (by decide), if_neg (by rw [ones]; decide), ite_self]
    rfl

end LinuxProgram.GetAddr
