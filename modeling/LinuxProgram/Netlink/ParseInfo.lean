import LinuxProgram.Netlink.Frames

/-!
# Reading a dump from the command socket

`nl_parse_info` of `getaddr/getaddr.c` receives datagrams into a buffer of its own
until a message ends the dump or the socket is empty, and hands every other message
to a filter.

The kernel is free to group the messages of a dump into datagrams as it likes, and
other processes may send to the socket. The result says that neither shows: the
calls of the filter and the returned value depend on the sequence of messages only.

## Main definitions

* `nlParseInfo` — the code, as a run over what `recvmsg` does
* `Arrives` — the receives that bring given groups of messages, with interruptions
  and foreign datagrams in between
* `filtered` — the messages the filter is called on

## Main results

* `parse_of_arrives` — a run is a fold over the messages, whatever their grouping
* `nlParseInfo_grouping` — two groupings of one sequence have the same calls and
  the same result
-/

namespace LinuxProgram.Netlink

open Base

/-- `struct sockaddr_nl`. -/
structure SockaddrNl where
  nlFamily : ℕ
  nlPid : ℕ
  nlGroups : ℕ
  deriving DecidableEq, Repr

/-- `sizeof(struct sockaddr_nl)`. -/
def sockaddrNlSize : ℕ := 12

/-- `sizeof buf`. -/
def bufSize : ℕ := 4096

/-- What one call of `recvmsg` does. A datagram comes with its sender, the length
of the sender's address, and what the fresh buffer happens to contain before. -/
inductive RecvEvent
  | failed (errno : ℕ)
  | datagram (snl : SockaddrNl) (namelen : ℕ) (bytes : List UInt8) (buf : Memory)

/-- The local variables and effects of `nl_parse_info` between two receives. -/
structure ParseInfo (σ : Type) where
  ret : ℤ
  arg : σ
  /-- The calls of the filter so far: the sender and the message. -/
  calls : List (SockaddrNl × List UInt8)

/-- What `nl_parse_info` leaves behind: its value, and the effects of the filter. -/
structure ParseResult (σ : Type) where
  value : ℤ
  arg : σ
  calls : List (SockaddrNl × List UInt8)

namespace ParseInfo

variable {σ : Type}

/-- `return value;`. -/
def exit (s : ParseInfo σ) (value : ℤ) : Except (ParseResult σ) (ParseInfo σ) :=
  .error { value, arg := s.arg, calls := s.calls }

/-- `error = (*filter)(&snl, h, arg); if (error < 0) ret = error;`. -/
def call (filter : SockaddrNl → List UInt8 → σ → ℤ × σ) (s : ParseInfo σ) (snl : SockaddrNl)
    (bytes : List UInt8) : ParseInfo σ :=
  let (error, arg) := filter snl bytes s.arg
  { ret := if error < 0 then error else s.ret, arg, calls := s.calls ++ [(snl, bytes)] }

end ParseInfo

section Model

variable {σ : Type} (filter : SockaddrNl → List UInt8 → σ → ℤ × σ)

/-- The body of the message loop. `own` tells whether `nl` is `&nl_cmd`, and
`cmdPid` is `nl_cmd.snl.nl_pid`. -/
def parseBody (own : Bool) (cmdPid : ℕ) (snl : SockaddrNl) (buf : Memory) (c : ℕ × ℤ)
    (s : ParseInfo σ) : Except (ParseResult σ) (ParseInfo σ) :=
  let h := c.1
  if nlmsgType buf h = nlmsgDone then s.exit s.ret
  else if nlmsgType buf h = nlmsgError then
    if nlmsgerrError buf h = 0 then
      -- An acknowledgement ends the dump unless it is part of a multipart answer.
      if nlmsgFlags buf h &&& nlmFMulti = 0 then s.exit 0 else .ok s
    else if nlmsgLen buf h < nlmsgerrLength then s.exit (-1)
    else s.exit (-1)
  else if !own ∧ nlmsgPid buf h = cmdPid then .ok s
  else .ok (s.call filter snl (buf.read h (nlmsgLen buf h)))

/-- One round of the receive loop. -/
def parseStep (own : Bool) (cmdPid : ℕ) (s : ParseInfo σ) :
    RecvEvent → Except (ParseResult σ) (ParseInfo σ)
  | .failed errno =>
    if errno = eintr then .ok s
    else if errno = eagain then s.exit s.ret
    -- Any other error is reported and the loop goes on.
    else .ok s
  | .datagram snl namelen bytes buf => do
    let data := bytes.take bufSize
    let buf := buf.write 0 data
    -- Only the kernel has port 0; what others send is ignored.
    if snl.nlPid ≠ 0 then .ok s
    else if data.length = 0 then s.exit (-1)
    else if namelen ≠ sockaddrNlSize then s.exit (-1)
    else
      let ((_, status), s') ←
        (nlmsgCursor buf).forEach (parseBody filter own cmdPid snl buf) (0, data.length) s
      -- `MSG_TRUNC` says that the datagram was longer than the buffer.
      if bufSize < bytes.length then .ok s'
      else if status ≠ 0 then s'.exit (-1)
      else .ok s'

/-- `nl_parse_info`. A run that uses up all events without returning waits for the
next one. -/
def nlParseInfo (own : Bool) (cmdPid : ℕ) (arg : σ) (events : List RecvEvent) :
    Except (ParseResult σ) (ParseInfo σ) :=
  runEvents (parseStep filter own cmdPid) { ret := 0, arg, calls := [] } events

end Model

/-! ### What a message does -/

namespace Message

/-- An acknowledgement inside a multipart answer. -/
def MultipartAck (x : Message) : Prop :=
  x.type = nlmsgError ∧ x.error = 0 ∧ x.flags &&& nlmFMulti ≠ 0

/-- A message that ends the dump: an end mark, an acknowledgement outside a
multipart answer, or an error. -/
def Terminates (x : Message) : Prop :=
  x.type = nlmsgDone ∨ x.type = nlmsgError ∧ (x.error ≠ 0 ∨ x.flags &&& nlmFMulti = 0)

instance (x : Message) : Decidable x.MultipartAck :=
  inferInstanceAs (Decidable (_ ∧ _ ∧ _))

instance (x : Message) : Decidable x.Terminates :=
  inferInstanceAs (Decidable (_ ∨ _ ∧ _))

/-- An error message has room for its error code and the header it answers. -/
def ErrorComplete (x : Message) : Prop := x.type = nlmsgError → nlmsgerrLength ≤ x.bytes.length

end Message

/-- The messages the filter sees: those before the first terminator that are not
multipart acknowledgements. -/
def filtered (ms : List Message) : List Message :=
  (ms.takeWhile fun x => ¬ x.Terminates).filter fun x => ¬ x.MultipartAck

section Messages

variable {σ : Type} (filter : SockaddrNl → List UInt8 → σ → ℤ × σ) (snl : SockaddrNl)

/-- What the loop body does with a well-formed message on the command socket. -/
def parseMessage (x : Message) (s : ParseInfo σ) : Except (ParseResult σ) (ParseInfo σ) :=
  if x.type = nlmsgDone then s.exit s.ret
  else if x.type = nlmsgError then
    if x.error = 0 then
      if x.flags &&& nlmFMulti = 0 then s.exit 0 else .ok s
    else s.exit (-1)
  else .ok (s.call filter snl x.bytes)

theorem parseBody_of_holds {buf : Memory} {x : Message} (complete : x.ErrorComplete) {q : ℕ}
    (held : buf.Holds q x.bytes) (cmdPid : ℕ) (len : ℤ) (s : ParseInfo σ) :
    parseBody filter true cmdPid snl buf (q, len) s = parseMessage filter snl x s := by
  unfold parseBody parseMessage
  dsimp only
  rw [Message.nlmsgType_of_holds held, Message.nlmsgFlags_of_holds held,
    Message.read_of_holds held]
  by_cases error : x.type = nlmsgError
  · -- Both returns behind a nonzero code give -1, so the length test does not matter.
    have long := complete error
    rw [nlmsgerrLength] at long
    rw [Message.nlmsgerrError_of_holds held (by omega), ite_self]
    simp
  · simp [error]

/-- A dump that ends with an empty socket calls the filter on `filtered` messages
and returns. -/
theorem overMessages_parse_calls (ms : List Message) (s : ParseInfo σ) :
    ∃ result, (overMessages (parseMessage filter snl) ms s >>= fun t => t.exit t.ret) =
        .error result ∧
      result.calls = s.calls ++ (filtered ms).map fun x => (snl, x.bytes) := by
  -- Induction on the messages, along `takeWhile` and `filter` in `filtered`.
  induction ms generalizing s with
  | nil => exact ⟨_, rfl, by simp [filtered]⟩
  | cons x ms ih =>
    rw [overMessages_cons]
    by_cases stop : x.Terminates
    · have none_left : filtered (x :: ms) = [] := by
        rw [filtered, List.takeWhile_cons_of_neg (by simpa using stop), List.filter_nil]
      have leave : ∃ value, parseMessage filter snl x s = s.exit value := by
        unfold parseMessage
        rcases stop with done | ⟨error, reason⟩
        · exact ⟨s.ret, if_pos done⟩
        · rw [if_neg (by rw [error]; decide), if_pos error]
          split_ifs with zero single
          · exact ⟨0, rfl⟩
          · exact absurd reason (by simp [zero, single])
          · exact ⟨-1, rfl⟩
      obtain ⟨value, hvalue⟩ := leave
      rw [hvalue, none_left]
      exact ⟨_, rfl, by simp⟩
    · have kept : filtered (x :: ms) =
          if x.MultipartAck then filtered ms else x :: filtered ms := by
        rw [filtered, List.takeWhile_cons_of_pos (by simpa using stop)]
        split_ifs with ack
        · rw [List.filter_cons_of_neg (by simpa using ack), ← filtered]
        · rw [List.filter_cons_of_pos (by simpa using ack), ← filtered]
      rw [kept]
      simp only [Message.Terminates, not_or, not_and, not_not] at stop
      unfold parseMessage
      rw [if_neg stop.1]
      by_cases error : x.type = nlmsgError
      · -- Only a multipart acknowledgement is an error message that does not end the dump.
        obtain ⟨zero, multi⟩ := stop.2 error
        rw [if_pos error, if_pos zero, if_neg multi, if_pos ⟨error, zero, multi⟩]
        exact ih s
      · rw [if_neg error, if_neg (fun ack => error ack.1)]
        obtain ⟨result, run, calls⟩ := ih (s.call filter snl x.bytes)
        refine ⟨result, run, calls.trans ?_⟩
        simp [ParseInfo.call]

end Messages

/-! ### Groupings -/

/-- The receives that bring the groups of messages `gs` from the kernel and then
find the socket empty. Interrupted calls and datagrams from other senders may come
in between, and anything may come after. -/
inductive Arrives (kernel : SockaddrNl) : List RecvEvent → List (List Message) → Prop
  | drained {events : List RecvEvent} : Arrives kernel (.failed eagain :: events) []
  | interrupted {events : List RecvEvent} {gs : List (List Message)}
      (rest : Arrives kernel events gs) : Arrives kernel (.failed eintr :: events) gs
  | foreign {events : List RecvEvent} {gs : List (List Message)} {snl : SockaddrNl}
      (other : snl.nlPid ≠ 0) (namelen : ℕ) (bytes : List UInt8) (buf : Memory)
      (rest : Arrives kernel events gs) :
      Arrives kernel (.datagram snl namelen bytes buf :: events) gs
  | group {events : List RecvEvent} {gs : List (List Message)} {g : List Message}
      (nonempty : g ≠ []) (within : (frames g).length ≤ bufSize) (buf : Memory)
      (rest : Arrives kernel events gs) :
      Arrives kernel (.datagram kernel sockaddrNlSize (frames g) buf :: events) (g :: gs)

section Groupings

variable {σ : Type} {filter : SockaddrNl → List UInt8 → σ → ℤ × σ} {kernel : SockaddrNl}

/-- A whole kernel datagram is a walk over its messages, and leaves no remnant. -/
theorem parseStep_group (from_kernel : kernel.nlPid = 0) {g : List Message} (nonempty : g ≠ [])
    (within : (frames g).length ≤ bufSize) (complete : ∀ x ∈ g, x.ErrorComplete) (buf : Memory)
    (cmdPid : ℕ) (s : ParseInfo σ) :
    parseStep filter true cmdPid s (.datagram kernel sockaddrNlSize (frames g) buf) =
      overMessages (parseMessage filter kernel) g s := by
  have taken : (frames g).take bufSize = frames g := List.take_of_length_le within
  have some_bytes : (frames g).length ≠ 0 := by
    obtain ⟨x, rest, rfl⟩ := List.exists_cons_of_ne_nil nonempty
    have header := x.header_le
    have inside := x.bytes_le_frame
    rw [frames_cons, List.length_append]
    omega
  have held : (buf.write 0 (frames g)).Holds 0 ((frames g).take (frames g).length) := by
    rw [List.take_length]
    exact Memory.holds_write
  have agree : ∀ x ∈ g, ∀ q len t, (buf.write 0 (frames g)).Holds q x.bytes →
      parseBody filter true cmdPid kernel (buf.write 0 (frames g)) (q, len) t =
        parseMessage filter kernel x t :=
    fun x hx q len t hq => parseBody_of_holds filter kernel (complete x hx) hq cmdPid len t
  have walk := forEach_frames g agree (by rw [bufSize] at within; omega) (Nat.le_refl _) held s
  rw [fitting_frames (Nat.le_refl _), sub_self] at walk
  simp only [parseStep, taken, from_kernel, some_bytes, walk, ne_eq, not_true_eq_false, if_false]
  cases overMessages (parseMessage filter kernel) g s with
  | error result => rfl
  | ok t => simp [Nat.not_lt.mpr within, bind, Except.bind, Functor.map, Except.map]

/-- **A run is a walk over the messages**, whatever their grouping and whatever
comes in between. -/
theorem parse_of_arrives (from_kernel : kernel.nlPid = 0) {events : List RecvEvent}
    {gs : List (List Message)} (arrives : Arrives kernel events gs)
    (complete : ∀ x ∈ gs.flatten, x.ErrorComplete) (cmdPid : ℕ) (s : ParseInfo σ) :
    runEvents (parseStep filter true cmdPid) s events =
      overMessages (parseMessage filter kernel) gs.flatten s >>= fun t => t.exit t.ret := by
  -- Only the case of a group adds messages; the others leave the state as it is.
  induction arrives generalizing s with
  | drained => rfl
  | interrupted rest ih =>
    rw [runEvents_cons]
    exact ih complete s
  | foreign other namelen bytes buf rest ih =>
    rw [runEvents_cons, parseStep]
    simp only [other, ne_eq, not_false_eq_true, if_true]
    exact ih complete s
  | @group events gs g nonempty within buf rest ih =>
    have first : ∀ x ∈ g, x.ErrorComplete := fun x hx =>
      complete x (by rw [List.flatten_cons]; exact List.mem_append_left _ hx)
    rw [runEvents_cons, parseStep_group from_kernel nonempty within first, List.flatten_cons,
      overMessages_append]
    cases overMessages (parseMessage filter kernel) g s with
    | error result => rfl
    | ok t =>
      exact ih (fun x hx => complete x (by
        rw [List.flatten_cons]
        exact List.mem_append_right _ hx)) t

/-- **Grouping does not show.** Take a sequence of well-formed messages and two ways
of cutting it into datagrams from the kernel, with any interruptions and foreign
datagrams in between. Both runs return, with the same value and the same calls of
the filter: one for each message before the first terminator that is not a multipart
acknowledgement, in order. -/
theorem nlParseInfo_grouping (filter : SockaddrNl → List UInt8 → σ → ℤ × σ) (cmdPid : ℕ) (arg : σ)
    (from_kernel : kernel.nlPid = 0) {ms : List Message} (complete : ∀ x ∈ ms, x.ErrorComplete)
    {events₁ events₂ : List RecvEvent} {gs₁ gs₂ : List (List Message)}
    (arrives₁ : Arrives kernel events₁ gs₁) (arrives₂ : Arrives kernel events₂ gs₂)
    (all₁ : gs₁.flatten = ms) (all₂ : gs₂.flatten = ms) :
    ∃ result, nlParseInfo filter true cmdPid arg events₁ = .error result ∧
      nlParseInfo filter true cmdPid arg events₂ = .error result ∧
      result.calls = (filtered ms).map fun x => (kernel, x.bytes) := by
  subst all₁
  obtain ⟨result, run, calls⟩ := overMessages_parse_calls filter kernel gs₁.flatten
    { ret := 0, arg, calls := [] }
  refine ⟨result, ?_, ?_, by simpa using calls⟩
  · rw [nlParseInfo, parse_of_arrives from_kernel arrives₁ complete, run]
  · rw [nlParseInfo, parse_of_arrives from_kernel arrives₂ (by rwa [all₂]), all₂, run]

/-- One datagram, or two with an interruption and a foreign datagram around them:
the filter sees both entries. -/
theorem nlParseInfo_grouping_two_entries :
    ∃ result,
      nlParseInfo (fun _ bytes count => (0, count + bytes.length)) true 77 0
          [.datagram ⟨16, 0, 0⟩ 12 (frames [shortEntry, longEntry, endMark]) (fun _ => 0),
           .failed eagain] = .error result ∧
        nlParseInfo (fun _ bytes count => (0, count + bytes.length)) true 77 0
          [.failed eintr, .datagram ⟨16, 0, 0⟩ 12 (frames [shortEntry]) (fun _ => 255),
           .datagram ⟨16, 1234, 0⟩ 12 [] (fun _ => 0),
           .datagram ⟨16, 0, 0⟩ 12 (frames [longEntry, endMark]) (fun _ => 7),
           .failed eagain] = .error result ∧
        result.calls = [(⟨16, 0, 0⟩, shortEntry.bytes), (⟨16, 0, 0⟩, longEntry.bytes)] := by
  have complete : ∀ x ∈ [shortEntry, longEntry, endMark], x.ErrorComplete := by
    unfold Message.ErrorComplete
    decide
  exact nlParseInfo_grouping _ 77 0 rfl complete
    (.group (by decide) (by decide) _ .drained)
    (.interrupted (.group (by decide) (by decide) _
      (.foreign (by decide) _ _ _ (.group (by decide) (by decide) _ .drained))))
    rfl rfl

end Groupings

end LinuxProgram.Netlink
