import LinuxProgram.Netlink.GetInfo

/-!
# One request, one answer

`netlink_transaction` of `code/nl.c` sends a request and receives a single datagram into
an answer message. The receive length is the length field of the answer, read before the
receive; the check for a truncated datagram compares the number of received bytes with
the same field after the receive, when the datagram has already overwritten it.

A well-formed datagram announces its own length there. So a truncated one never passes
for one that just fits, and the check never fires; see `netlinkRcv_message`.

The builder functions and `netlink_send` have the same text as in `get_link/nl.c`.

## Main definitions

* `netlinkRcv`, `netlinkTransaction`

## Main results

* `netlinkTransaction_error` — an error message is returned as its error code, however
  much of it was cut off behind the code
-/

namespace LinuxProgram.NetworkCode

open Base Netlink

/-- `EMSGSIZE`. -/
def emsgsize : ℤ := 90

/-- The loop of `netlink_rcv`, with the receive length `iovLen`: the returned value and
the answer, or `none` while `recvmsg` has not returned. `MSG_TRUNC` is set when the
datagram is longer than the receive length. -/
def receive (iovLen : ℕ) (answer : Nlmsg) : List Recv → Option (ℤ × Nlmsg)
  | [] => none
  | outcome :: later =>
    match outcome.datagram with
    | none =>
      if outcome.errno = eintr then receive iovLen answer later
      else some (-outcome.errno, answer)
    | some bytes =>
      let answer' := { answer with nlmsghdr := answer.nlmsghdr.write 0 (bytes.take iovLen) }
      let ret := toInt32 (bytes.take iovLen).length
      if ret < 0 then
        if outcome.errno = eintr then receive iovLen answer' later
        else some (-outcome.errno, answer')
      else if ret = 0 then some (0, answer')
      else if iovLen < bytes.length ∧ toUInt32 ret = answer'.len then some (-emsgsize, answer')
      else some (ret, answer')

/-- `netlink_rcv`. -/
def netlinkRcv (answer : Nlmsg) (outcomes : List Recv) : Option (ℤ × Nlmsg) :=
  receive answer.len answer outcomes

/-- `netlink_transaction`. The request itself is only read, by `sendmsg`. -/
def netlinkTransaction (send : Send) (answer : Nlmsg) (outcomes : List Recv) :
    Option (ℤ × Nlmsg) :=
  let ret := netlinkSend send
  if ret < 0 then some (ret, answer)
  else
    match netlinkRcv answer outcomes with
    | none => none
    | some (ret, answer') =>
      if ret < 0 then some (ret, answer')
      else if nlmsgType answer'.nlmsghdr 0 = nlmsgError then
        some (nlmsgerrError answer'.nlmsghdr 0, answer')
      else some (0, answer')

/-- Calls of `recvmsg` that were interrupted. -/
def Interrupted (outcomes : List Recv) : Prop :=
  ∀ outcome ∈ outcomes, outcome.datagram = none ∧ outcome.errno = eintr

section Message

variable {x : Message} {answer : Nlmsg} {interrupts later : List Recv} {errno : ℕ}

/-- An interrupted call is repeated. -/
theorem receive_interrupted (interrupted : Interrupted interrupts) (iovLen : ℕ) :
    receive iovLen answer (interrupts ++ later) = receive iovLen answer later := by
  induction interrupts with
  | nil => rfl
  | cons outcome interrupts ih =>
    obtain ⟨nothing, again⟩ := interrupted outcome List.mem_cons_self
    rw [List.cons_append, receive]
    simp only [nothing, again, if_true]
    exact ih fun other mem => interrupted other (List.mem_cons_of_mem outcome mem)

/-- A field of a message that was received up to `k` bytes. -/
theorem read_received {m : Memory} {k i n : ℕ} (inside : i + n ≤ k)
    (long : i + n ≤ x.bytes.length) :
    (m.write 0 (x.bytes.take k)).read i n = (x.bytes.drop i).take n := by
  have held : (m.write 0 (x.bytes.take k)).Holds 0 (x.bytes.take k) := Memory.holds_write
  have field := held.read_eq (k := i) (n := n) (by rw [List.length_take]; omega)
  rw [Nat.zero_add] at field
  rw [field, List.drop_take, List.take_take, Nat.min_eq_left (by omega)]

/-- A well-formed message is received without an error, cut off or not. -/
theorem netlinkRcv_message (x : Message) (errno : ℕ) (later : List Recv)
    (interrupted : Interrupted interrupts) (room : 4 ≤ answer.len) (range : answer.len < 2 ^ 31) :
    ∃ ret, netlinkRcv answer (interrupts ++ { datagram := some x.bytes, errno } :: later) =
        some (ret, { answer with
          nlmsghdr := answer.nlmsghdr.write 0 (x.bytes.take answer.len) }) ∧ 0 ≤ ret := by
  have header := x.header_le
  have size : (x.bytes.take answer.len).length = min answer.len x.bytes.length :=
    List.length_take
  have ret : toInt32 (x.bytes.take answer.len).length = (min answer.len x.bytes.length : ℕ) := by
    rw [size]
    exact toInt32_of_range (by omega) (by omega)
  -- The length field now holds the length of the whole message.
  have announced : Nlmsg.len { answer with
      nlmsghdr := answer.nlmsghdr.write 0 (x.bytes.take answer.len) } = x.bytes.length := by
    rw [Nlmsg.len, nlmsgLen, Memory.u32, read_received room (by omega), List.drop_zero,
      x.announces]
  refine ⟨(min answer.len x.bytes.length : ℕ), ?_, by omega⟩
  rw [netlinkRcv, receive_interrupted interrupted, receive]
  simp only [ret, announced]
  have unsigned :=
    toUInt32_of_range (n := (min answer.len x.bytes.length : ℕ)) (by omega) (by omega)
  rw [if_neg (by omega), if_neg (by omega), if_neg (by omega)]

/-- An error message is returned as its error code. -/
theorem netlinkTransaction_error {send : Send} (sent : 0 ≤ netlinkSend send)
    (interrupted : Interrupted interrupts) (room : 20 ≤ answer.len) (range : answer.len < 2 ^ 31)
    (type : x.type = nlmsgError) (long : 20 ≤ x.bytes.length) :
    ∃ answer', netlinkTransaction send answer
      (interrupts ++ { datagram := some x.bytes, errno } :: later) = some (x.error, answer') := by
  obtain ⟨ret, received, positive⟩ :=
    netlinkRcv_message x errno later interrupted (by omega) range
  have typed : nlmsgType (answer.nlmsghdr.write 0 (x.bytes.take answer.len)) 0 = nlmsgError := by
    rw [nlmsgType, Memory.u16, read_received (by omega) (by omega), ← Message.type, type]
  have code : nlmsgerrError (answer.nlmsghdr.write 0 (x.bytes.take answer.len)) 0 = x.error := by
    rw [nlmsgerrError, Memory.i32, Memory.u32, read_received (by omega) (by omega), Message.error]
  exact ⟨{ answer with nlmsghdr := answer.nlmsghdr.write 0 (x.bytes.take answer.len) }, by
    simp only [netlinkTransaction, received, Int.not_lt.mpr sent, Int.not_lt.mpr positive, typed,
      code, if_false, if_true]⟩

end Message

end LinuxProgram.NetworkCode
