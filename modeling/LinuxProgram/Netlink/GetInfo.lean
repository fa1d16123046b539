import LinuxProgram.Netlink.Builder
import LinuxProgram.Netlink.Frames

/-!
# The dump transaction

`netlink_transaction_getinfo` of `get_link/nl.c` sends a request and then
receives datagrams into one answer buffer, walking the messages of each and
handing them to a callback, until a message ends the exchange.

The receive length of every round is the length field at the start of the answer
buffer. That field is the capacity before the first round; from then on it is
whatever the last datagram put there. Two results say exactly what this means.

## Main definitions

* `netlinkRcv`, `netlinkSend`, `netlinkTransactionGetinfo` — the code
* `FitsRounds` — every datagram fits in the length its predecessor announced
* `announced` — the length field after a sequence of receives

## Main results

* `getinfo_delivers_iff` — which sequences of well-formed datagrams reach the
  callback completely
* `getinfo_receives_within_iff` — when the receive length stays within the buffer
-/

namespace LinuxProgram.Netlink

open Base

/-- What one call of `recvmsg` does: the datagram it takes from the socket, if it
succeeds, and the value of `errno` afterwards. A successful call leaves an
earlier value in place. -/
structure Recv where
  datagram : Option (List UInt8)
  errno : ℕ

/-- What the call of `sendmsg` does. -/
structure Send where
  sent : Option ℕ
  errno : ℕ

/-- `netlink_send`. -/
def netlinkSend (outcome : Send) : ℤ :=
  let ret := match outcome.sent with
    | some n => toInt32 n
    | none => -1
  if ret < 0 then -outcome.errno else ret

theorem netlinkSend_sent {n errno : ℕ} (small : n < 2 ^ 31) :
    0 ≤ netlinkSend { sent := some n, errno } := by
  have ret : toInt32 n = n := toInt32_of_range (by omega) (by omega)
  simp only [netlinkSend, ret]
  rw [if_neg (by omega)]
  omega

/-- `netlink_rcv` with receive length `len`, up to the end of one `recvmsg`. The
kernel stores as much of the datagram as `iov_len` allows. The status is `none`
when the call is repeated. -/
def netlinkRcv (answer : Nlmsg) (len : ℤ) (outcome : Recv) : Option ℤ × Nlmsg :=
  let (ret, answer) := match outcome.datagram with
    | some bytes =>
      let data := bytes.take (toSize len)
      (toInt32 data.length, { answer with nlmsghdr := answer.nlmsghdr.write 0 data })
    | none => (-1, answer)
  if ret < 0 then
    -- An interrupted call is repeated with the length it was called with.
    if outcome.errno = eintr then (none, answer) else (some (-outcome.errno), answer)
  else (some ret, answer)

/-- The return statements of the transaction. -/
inductive ExitPoint
  | sendFailed
  | recvFailed
  | headError
  | done
  | ack
  | truncated
  | kernelError
  deriving DecidableEq, Repr

/-- How the transaction ended: where, with which value, after which calls of the
callback. -/
structure Exit (σ : Type) where
  point : ExitPoint
  value : ℤ
  calls : List (List UInt8)
  arg : σ

/-- The transaction while it waits in `recvmsg`. -/
structure GetInfo (σ : Type) where
  answer : Nlmsg
  /-- The length passed to the `netlink_rcv` in progress. -/
  len : ℤ
  ret : ℤ
  arg : σ
  /-- The messages handed to the callback so far. -/
  calls : List (List UInt8)

namespace GetInfo

variable {σ : Type}

/-- Leave the transaction. -/
def exit (s : GetInfo σ) (point : ExitPoint) (value : ℤ) : Except (Exit σ) (GetInfo σ) :=
  .error { point, value, calls := s.calls, arg := s.arg }

/-- `error = operation(h, arg); if (error != 0) ret = error;`. -/
def call (operation : σ → List UInt8 → ℤ × σ) (s : GetInfo σ) (bytes : List UInt8) : GetInfo σ :=
  let (error, arg) := operation s.arg bytes
  { s with arg, calls := s.calls ++ [bytes], ret := if error ≠ 0 then error else s.ret }

/-- The start of the next round: the receive length is the length field of the
answer, passed as `int`. -/
def again (s : GetInfo σ) : GetInfo σ := { s with len := toInt32 s.answer.len }

@[simp] theorem again_len (s : GetInfo σ) : s.again.len = toInt32 s.answer.len := by
  rw [again]

@[simp] theorem again_answer (s : GetInfo σ) : s.again.answer = s.answer := by
  rw [again]

@[simp] theorem again_calls (s : GetInfo σ) : s.again.calls = s.calls := by
  rw [again]

end GetInfo

section Model

variable {σ : Type} (operation : σ → List UInt8 → ℤ × σ)

/-- The body of the message loop. -/
def getinfoBody (m : Memory) (c : ℕ × ℤ) (s : GetInfo σ) : Except (Exit σ) (GetInfo σ) :=
  let h := c.1
  if nlmsgType m h = nlmsgDone then s.exit .done 0
  else if nlmsgType m h = nlmsgError then
    if nlmsgerrError m h = 0 then
      -- An acknowledgement ends the exchange unless it is part of a multipart answer.
      if nlmsgFlags m h &&& nlmFMulti = 0 then s.exit .ack 0 else .ok s
    else if nlmsgLen m h < nlmsgerrLength then s.exit .truncated (-1)
    else s.exit .kernelError (-1)
  else .ok (s.call operation (m.read h (nlmsgLen m h)))

/-- What the transaction does with one result of `recvmsg`. -/
def getinfoStep (s : GetInfo σ) (outcome : Recv) : Except (Exit σ) (GetInfo σ) :=
  match netlinkRcv s.answer s.len outcome with
  | (none, answer) => .ok { s with answer }
  | (some status, answer) =>
    if status < 0 then s.exit .recvFailed s.ret
    -- The head of the buffer is looked at before the walk, whatever was received.
    else if nlmsgType answer.nlmsghdr 0 = nlmsgError then
      s.exit .headError (nlmsgerrError answer.nlmsghdr 0)
    else do
      let (_, s') ← (nlmsgCursor answer.nlmsghdr).forEach
        (getinfoBody operation answer.nlmsghdr) (0, status) { s with answer }
      return s'.again

/-- `netlink_transaction_getinfo`. A run that uses up all outcomes without
returning waits for the next one. -/
def netlinkTransactionGetinfo (send : Send) (answer : Nlmsg) (arg : σ)
    (outcomes : List Recv) : Except (Exit σ) (GetInfo σ) :=
  let ret := netlinkSend send
  let s : GetInfo σ := { answer, len := toInt32 answer.len, ret, arg, calls := [] }
  if ret < 0 then s.exit .sendFailed ret else runEvents (getinfoStep operation) s outcomes

end Model

/-! ### The answer buffer -/

section Alloc

variable {shell : Bool} {block : Option Memory} {size : ℕ} {answer : Nlmsg}

/-- A reserved message is an allocated one with its capacity in the length field. -/
theorem nlmsgAllocReserve_some (alloc : nlmsgAllocReserve shell block size = some answer) :
    ∃ msg, nlmsgAlloc shell block size = some msg ∧
      answer = { msg with nlmsghdr := msg.nlmsghdr.setU32 0 msg.cap } := by
  unfold nlmsgAllocReserve at alloc
  split at alloc
  case h_1 msg found => exact ⟨msg, found, (Option.some.inj alloc).symm⟩
  case h_2 => cases alloc

/-- The length field of a reserved message is its capacity, cut to 32 bits. -/
theorem nlmsgAllocReserve_len (alloc : nlmsgAllocReserve shell block size = some answer) :
    answer.len = answer.cap % 2 ^ 32 := by
  obtain ⟨msg, -, rfl⟩ := nlmsgAllocReserve_some alloc
  exact Memory.u32_setU32_same

theorem nlmsgAllocReserve_cap_le (alloc : nlmsgAllocReserve shell block size = some answer) :
    answer.cap ≤ 2 ^ 32 + 12 := by
  obtain ⟨msg, found, rfl⟩ := nlmsgAllocReserve_some alloc
  have cap := nlmsgAlloc_cap found
  have bound := alignSize_le size
  rw [nlmsgHdrlen] at cap
  dsimp only
  omega

/-- The type field of a fresh message is zero. -/
theorem nlmsgAllocReserve_type (alloc : nlmsgAllocReserve shell block size = some answer) :
    nlmsgType answer.nlmsghdr 0 = 0 := by
  obtain ⟨msg, found, rfl⟩ := nlmsgAllocReserve_some alloc
  have cap := nlmsgAlloc_cap found
  rw [nlmsgHdrlen] at cap
  -- Storing the length does not reach the type field.
  have zero : (msg.nlmsghdr.setU32 0 msg.cap).u16 4 = Memory.u16 (fun _ => 0) 4 := by
    apply Memory.u16_congr
    intro i lower upper
    rw [Memory.setU32_apply_outside (.inr (by omega))]
    exact nlmsgAlloc_zero found lower (by omega)
  exact zero

end Alloc

/-! ### One round on a well-formed datagram -/

section Rounds

variable {σ : Type} {operation : σ → List UInt8 → ℤ × σ}

/-- What the loop body does with a well-formed message that is not an error. -/
def deliver (operation : σ → List UInt8 → ℤ × σ) (x : Message) (s : GetInfo σ) :
    Except (Exit σ) (GetInfo σ) :=
  if x.type = nlmsgDone then s.exit .done 0 else .ok (s.call operation x.bytes)

theorem getinfoBody_of_holds {m : Memory} {x : Message} (plain : x.type ≠ nlmsgError) {q : ℕ}
    (held : m.Holds q x.bytes) (len : ℤ) (s : GetInfo σ) :
    getinfoBody operation m (q, len) s = deliver operation x s := by
  unfold getinfoBody deliver
  dsimp only
  rw [Message.nlmsgType_of_holds held, if_neg plain, Message.read_of_holds held]

/-- The state after the callback has run on the given messages. -/
def GetInfo.callAll (operation : σ → List UInt8 → ℤ × σ) (s : GetInfo σ) (ms : List Message) :
    GetInfo σ :=
  ms.foldl (fun s x => s.call operation x.bytes) s

namespace GetInfo

theorem callAll_calls (s : GetInfo σ) (ms : List Message) :
    (s.callAll operation ms).calls = s.calls ++ ms.map Message.bytes := by
  induction ms generalizing s with
  | nil => simp [callAll]
  | cons x ms ih =>
    change ((s.call operation x.bytes).callAll operation ms).calls = _
    rw [ih]
    simp [call]

theorem callAll_answer (s : GetInfo σ) (ms : List Message) :
    (s.callAll operation ms).answer = s.answer := by
  induction ms generalizing s with
  | nil => rfl
  | cons x ms ih =>
    change ((s.call operation x.bytes).callAll operation ms).answer = _
    rw [ih]
    rfl

end GetInfo

/-- Messages before the end mark all reach the callback. -/
theorem overMessages_deliver {ms : List Message} (open' : ∀ x ∈ ms, x.type ≠ nlmsgDone)
    (s : GetInfo σ) : overMessages (deliver operation) ms s = .ok (s.callAll operation ms) := by
  induction ms generalizing s with
  | nil => rfl
  | cons x ms ih =>
    rw [overMessages_cons, deliver, if_neg (open' x (List.mem_cons_self ..))]
    exact ih (fun y hy => open' y (List.mem_cons_of_mem _ hy)) _

/-- The first end mark ends the transaction. -/
theorem overMessages_deliver_done {before after : List Message} {x : Message}
    (open' : ∀ y ∈ before, y.type ≠ nlmsgDone) (done : x.type = nlmsgDone) (s : GetInfo σ) :
    overMessages (deliver operation) (before ++ x :: after) s =
      (s.callAll operation before).exit .done 0 := by
  rw [overMessages_append, overMessages_deliver open']
  change overMessages (deliver operation) (x :: after) _ = _
  rw [overMessages_cons, deliver, if_pos done]
  rfl

/-- The answer buffer after a datagram has been received with length `len`. -/
def received (answer : Nlmsg) (len : ℤ) (bytes : List UInt8) : Nlmsg :=
  { answer with nlmsghdr := answer.nlmsghdr.write 0 (bytes.take (toSize len)) }

theorem received_holds {answer : Nlmsg} {len : ℤ} {bytes : List UInt8} :
    (received answer len bytes).nlmsghdr.Holds 0 (bytes.take (toSize len)) := by
  change (answer.nlmsghdr.write 0 (bytes.take (toSize len))).Holds 0 _
  exact Memory.holds_write

theorem netlinkRcv_datagram {answer : Nlmsg} {len : ℤ} {outcome : Recv} {bytes : List UInt8}
    (delivered : outcome.datagram = some bytes) :
    netlinkRcv answer len outcome =
      if toInt32 (min (toSize len) bytes.length : ℕ) < 0 then
        if outcome.errno = eintr then (none, received answer len bytes)
        else (some (-(outcome.errno : ℤ)), received answer len bytes)
      else (some (toInt32 (min (toSize len) bytes.length : ℕ)), received answer len bytes) := by
  simp only [netlinkRcv, delivered, received, List.length_take]

/-- One round on a datagram whose received part is an `int` long: the callback
runs on the messages that were received whole. -/
theorem getinfoStep_frames {s : GetInfo σ} {g : List Message} {outcome : Recv}
    (delivered : outcome.datagram = some (frames g)) (plain : ∀ x ∈ g, x.type ≠ nlmsgError)
    (range : min (toSize s.len) (frames g).length < 2 ^ 31)
    (head : nlmsgType (received s.answer s.len (frames g)).nlmsghdr 0 ≠ nlmsgError) :
    getinfoStep operation s outcome =
      GetInfo.again <$> overMessages (deliver operation)
        (fitting (min (toSize s.len) (frames g).length) g)
        { s with answer := received s.answer s.len (frames g) } := by
  have status : toInt32 (min (toSize s.len) (frames g).length : ℕ) =
      (min (toSize s.len) (frames g).length : ℕ) :=
    toInt32_of_range (by omega) (by omega)
  have held : (received s.answer s.len (frames g)).nlmsghdr.Holds 0
      ((frames g).take (min (toSize s.len) (frames g).length)) := by
    rw [← List.take_eq_take_min]
    exact received_holds
  rw [getinfoStep, netlinkRcv_datagram delivered, status, if_neg (by omega)]
  dsimp only
  rw [if_neg (by omega), if_neg head,
    forEach_frames g (fun x hx q len t hq => getinfoBody_of_holds (plain x hx) hq len t) range
      (by omega) held]
  cases overMessages (deliver operation) (fitting (min (toSize s.len) (frames g).length) g)
      { s with answer := received s.answer s.len (frames g) } <;> rfl

/-- The outcomes of a round on a well-formed datagram, told apart by what the
callback has seen of it. -/
inductive Round (s : GetInfo σ) (g : List Message) : Except (Exit σ) (GetInfo σ) → Prop
  /-- The transaction gave up. -/
  | failed {e : Exit σ} (other : e.point ≠ .done) : Round s g (.error e)
  /-- The transaction reached an end mark that was received whole. -/
  | ended {e : Exit σ} (before : List Message) (x : Message) (after : List Message)
      (split : g = before ++ x :: after)
      (none_done : ∀ y ∈ before, y.type ≠ nlmsgDone)
      (range : min (toSize s.len) (frames g).length < 2 ^ 31)
      (fits : after = [] → unpadded g ≤ toSize s.len)
      (calls : e.calls = s.calls ++ before.map Message.bytes) : Round s g (.error e)
  /-- The transaction goes on after the messages `seen`. -/
  | next {s' : GetInfo σ} (seen : List Message) (part : seen <+: g)
      (none_done : ∀ y ∈ seen, y.type ≠ nlmsgDone)
      (calls : s'.calls = s.calls ++ seen.map Message.bytes)
      (whole : seen = g → min (toSize s.len) (frames g).length < 2 ^ 31 ∧
        unpadded g ≤ toSize s.len ∧ s'.len = toInt32 s'.answer.len ∧
        s'.answer = received s.answer s.len (frames g)) : Round s g (.ok s')

theorem Round.exit {s : GetInfo σ} {g : List Message} {point : ExitPoint}
    (other : point ≠ .done) (t : GetInfo σ) (value : ℤ) : Round s g (t.exit point value) :=
  .failed other

/-- A round whose received part does not fit an `int` shows the callback nothing. -/
theorem round_of_overlong {s : GetInfo σ} {g : List Message} {outcome : Recv}
    (delivered : outcome.datagram = some (frames g)) (limit : (frames g).length ≤ 2 ^ 32 + 12)
    (overlong : 2 ^ 31 ≤ min (toSize s.len) (frames g).length) :
    Round s g (getinfoStep operation s outcome) := by
  have some_message : [] ≠ g := by
    rintro rfl
    simp at overlong
  have nothing : ∀ answer len, Round s g (.ok { s with answer, len }) := fun answer len =>
    .next [] List.nil_prefix (by simp) (by simp) (fun h => absurd h some_message)
  rw [getinfoStep, netlinkRcv_datagram delivered]
  set status := toInt32 (min (toSize s.len) (frames g).length : ℕ) with hstatus
  -- As an `int` the count is negative or tiny, too short for a header either way.
  have short : status < 16 := by
    rw [hstatus, toInt32]
    omega
  have stop : ∀ (m : Memory) (len : ℤ), len < 16 → ∀ t : GetInfo σ,
      (nlmsgCursor m).forEach (getinfoBody operation m) (0, len) t = .ok ((0, len), t) :=
    fun m len hlen t => Cursor.forEach_stop _ _ (nlmsgCursor_short hlen) t
  split_ifs with negative interrupted
  · exact nothing _ _
  · dsimp only
    split_ifs with bad head
    · exact Round.exit (by decide) ..
    · exact Round.exit (by decide) ..
    · rw [stop _ _ (by omega)]
      exact nothing _ _
  · dsimp only
    rw [if_neg negative]
    split_ifs with head
    · exact Round.exit (by decide) ..
    · rw [stop _ _ short]
      exact nothing _ _

/-- Every round on a well-formed datagram without error messages is one of
`Round`. -/
theorem getinfoStep_round {s : GetInfo σ} {g : List Message} {outcome : Recv}
    (delivered : outcome.datagram = some (frames g)) (plain : ∀ x ∈ g, x.type ≠ nlmsgError)
    (limit : (frames g).length ≤ 2 ^ 32 + 12) :
    Round s g (getinfoStep operation s outcome) := by
  rcases le_or_gt (2 ^ 31) (min (toSize s.len) (frames g).length) with overlong | range
  · exact round_of_overlong delivered limit overlong
  by_cases head : nlmsgType (received s.answer s.len (frames g)).nlmsghdr 0 = nlmsgError
  · have status : toInt32 (min (toSize s.len) (frames g).length : ℕ) =
        (min (toSize s.len) (frames g).length : ℕ) :=
      toInt32_of_range (by omega) (by omega)
    rw [getinfoStep, netlinkRcv_datagram delivered, status, if_neg (by omega)]
    dsimp only
    rw [if_neg (by omega), if_pos head]
    exact Round.exit (by decide) ..
  rw [getinfoStep_frames delivered plain range head]
  set k := min (toSize s.len) (frames g).length with hk
  have part := fitting_prefix k g
  have whole : fitting k g = g → unpadded g ≤ toSize s.len := fun h =>
    (fitting_eq_self_iff.mp h).trans (Nat.min_le_left ..)
  by_cases none_done : ∀ y ∈ fitting k g, y.type ≠ nlmsgDone
  · rw [overMessages_deliver none_done]
    change Round s g (.ok (GetInfo.again _))
    refine .next (fitting k g) part none_done ?_ fun h =>
      ⟨range, whole h, by simp, ?_⟩
    · rw [GetInfo.again_calls, GetInfo.callAll_calls]
    · rw [GetInfo.again_answer, GetInfo.callAll_answer]
  · -- Split what was received at its first end mark.
    push Not at none_done
    obtain ⟨x, before, after, split, done, first⟩ :
        ∃ x before after, fitting k g = before ++ x :: after ∧ x.type = nlmsgDone ∧
          ∀ y ∈ before, y.type ≠ nlmsgDone := by
      obtain ⟨z, hz, hdone⟩ := none_done
      have found : ((fitting k g).find? (fun y => y.type = nlmsgDone)).isSome := by
        rw [List.find?_isSome]
        exact ⟨z, hz, by simpa using hdone⟩
      obtain ⟨x, hx⟩ := Option.isSome_iff_exists.mp found
      obtain ⟨done, before, after, split, first⟩ := List.find?_eq_some_iff_append.mp hx
      exact ⟨x, before, after, split, by simpa using done, by simpa using first⟩
    rw [split, overMessages_deliver_done first done]
    change Round s g (GetInfo.exit _ _ _)
    obtain ⟨rest, hrest⟩ := part
    refine .ended before x (after ++ rest) ?_ first range ?_ ?_
    · rw [← hrest, split]
      simp
    · intro h
      obtain ⟨rfl, rfl⟩ := List.append_eq_nil_iff.mp h
      exact whole (by simpa using hrest)
    · exact GetInfo.callAll_calls ..

/-! ### Complete delivery -/

/-- A datagram of at most `cap` bytes that is a concatenation of well-formed
messages, none of them an error. -/
structure Carries (cap : ℕ) (outcome : Recv) (g : List Message) : Prop where
  delivered : outcome.datagram = some (frames g)
  plain : ∀ x ∈ g, x.type ≠ nlmsgError
  within : (frames g).length ≤ cap

/-- The receive length of the round after the datagram `g`: the length of its
first message, or the old length if there is none. -/
def nextLength (len : ℕ) : List Message → ℕ
  | [] => len
  | x :: _ => x.bytes.length

/-- Every datagram fits, up to its last padding, in the receive length its
predecessor left, and no received part is longer than an `int` can say. -/
def FitsRounds : (len : ℕ) → List (List Message) → Prop
  | _, [] => True
  | len, g :: gs =>
    min len (frames g).length < 2 ^ 31 ∧ unpadded g ≤ len ∧ FitsRounds (nextLength len g) gs

instance FitsRounds.decidable : (len : ℕ) → (gs : List (List Message)) →
    Decidable (FitsRounds len gs)
  | _, [] => .isTrue trivial
  | len, g :: gs =>
    haveI := FitsRounds.decidable (nextLength len g) gs
    inferInstanceAs (Decidable (_ ∧ _ ∧ FitsRounds (nextLength len g) gs))

theorem fitsRounds_of_flatten_nil {len : ℕ} {gs : List (List Message)} (empty : gs.flatten = []) :
    FitsRounds len gs := by
  induction gs generalizing len with
  | nil => trivial
  | cons g gs ih =>
    obtain ⟨rfl, rest⟩ := List.append_eq_nil_iff.mp (List.flatten_cons ▸ empty)
    exact ⟨by simp, Nat.zero_le _, ih rest⟩

/-- The two places where the last message of a sequence of datagrams can be. -/
theorem append_eq_concat {α : Type} {g rest ms : List α} {last : α}
    (all : g ++ rest = ms ++ [last]) :
    (∃ ms', ms = g ++ ms' ∧ rest = ms' ++ [last]) ∨ (g = ms ++ [last] ∧ rest = []) := by
  rcases List.eq_nil_or_concat rest with rfl | ⟨init, x, rfl⟩
  · exact .inr ⟨by simpa using all, rfl⟩
  · rw [List.concat_eq_append, ← List.append_assoc] at all
    obtain ⟨hms, hlast⟩ := List.append_inj' all rfl
    exact .inl ⟨init, hms.symm, by rw [List.concat_eq_append, hlast]⟩

theorem received_nil (answer : Nlmsg) (len : ℤ) :
    (received answer len []).nlmsghdr = answer.nlmsghdr := by
  funext i
  change answer.nlmsghdr.write 0 (List.take (toSize len) []) i = _
  rw [List.take_nil, Memory.write_apply_outside (by simp)]

theorem received_holds_first {answer : Nlmsg} {len : ℤ} {x : Message} {g : List Message}
    (fits : x.bytes.length ≤ toSize len) :
    (received answer len (frames (x :: g))).nlmsghdr.Holds 0 x.bytes := by
  have start : ((frames (x :: g)).take (toSize len)).take x.bytes.length = x.bytes := by
    rw [List.take_take, Nat.min_eq_left fits, frames_cons, Message.frame, List.append_assoc,
      List.take_left]
  have held : (received answer len (frames (x :: g))).nlmsghdr.Holds 0 _ :=
    received_holds.take x.bytes.length
  rwa [start] at held

section Sequence

variable {s : GetInfo σ} {g : List Message}

/-- After a datagram that was received without loss, the next receive length is
the one its first message announces. -/
theorem received_len (fresh : s.len = toInt32 s.answer.len)
    (range : min (toSize s.len) (frames g).length < 2 ^ 31) (whole : unpadded g ≤ toSize s.len) :
    toSize (toInt32 (received s.answer s.len (frames g)).len) = nextLength (toSize s.len) g := by
  cases g with
  | nil =>
    rw [Nlmsg.len, frames_nil, received_nil, ← Nlmsg.len, ← fresh, nextLength]
  | cons x g =>
    have first := bytes_le_unpadded x g
    have inside := unpadded_le_frames (x :: g)
    rw [Nlmsg.len, Message.nlmsgLen_of_holds (received_holds_first (first.trans whole)),
      nextLength, toSize_toInt32_of_lt (by omega)]

/-- A datagram that was received without loss does not start with an error. -/
theorem received_head (quiet : nlmsgType s.answer.nlmsghdr 0 ≠ nlmsgError)
    (plain : ∀ x ∈ g, x.type ≠ nlmsgError) (whole : unpadded g ≤ toSize s.len) :
    nlmsgType (received s.answer s.len (frames g)).nlmsghdr 0 ≠ nlmsgError := by
  cases g with
  | nil =>
    rwa [frames_nil, received_nil]
  | cons x g =>
    have first := bytes_le_unpadded x g
    rw [Message.nlmsgType_of_holds (received_holds_first (first.trans whole))]
    exact plain x (List.mem_cons_self ..)

variable {cap : ℕ} {outcomes : List Recv} {gs : List (List Message)}

/-- Datagrams that fit are handed to the callback completely. -/
theorem getinfo_delivers (carried : List.Forall₂ (Carries cap) outcomes gs) {ms : List Message}
    {last : Message} (all : gs.flatten = ms ++ [last]) (done : last.type = nlmsgDone)
    (none_done : ∀ x ∈ ms, x.type ≠ nlmsgDone) (fits : FitsRounds (toSize s.len) gs)
    (fresh : s.len = toInt32 s.answer.len) (quiet : nlmsgType s.answer.nlmsghdr 0 ≠ nlmsgError) :
    ∃ arg, runEvents (getinfoStep operation) s outcomes =
      .error { point := .done, value := 0, calls := s.calls ++ ms.map Message.bytes, arg } := by
  -- Induction on the datagrams; each is received with the length its predecessor left.
  induction carried generalizing s ms with
  | nil => simp at all
  | @cons outcome g outcomes gs first rest ih =>
    obtain ⟨range, whole, more⟩ := fits
    have enough : fitting (min (toSize s.len) (frames g).length) g = g :=
      fitting_eq_self_iff.mpr (Nat.le_min.mpr ⟨whole, unpadded_le_frames g⟩)
    have head := received_head quiet first.plain whole
    rw [runEvents_cons, getinfoStep_frames first.delivered first.plain range head, enough]
    rcases append_eq_concat (List.flatten_cons ▸ all) with ⟨ms', rfl, all'⟩ | ⟨rfl, -⟩
    · -- The end mark is still to come: the callback sees the whole datagram.
      rw [overMessages_deliver (fun y hy => none_done y (List.mem_append_left _ hy))]
      set t := ({ s with answer := received s.answer s.len (frames g) } : GetInfo σ).callAll
        operation g with ht
      have answer : t.answer = received s.answer s.len (frames g) := GetInfo.callAll_answer ..
      have len : toSize t.again.len = nextLength (toSize s.len) g := by
        rw [GetInfo.again_len, answer, received_len fresh range whole]
      obtain ⟨arg, run⟩ := ih (s := t.again) all'
        (fun y hy => none_done y (List.mem_append_right _ hy)) (by rwa [len])
        (by rw [GetInfo.again_len, GetInfo.again_answer])
        (by rwa [GetInfo.again_answer, answer])
      refine ⟨arg, run.trans ?_⟩
      rw [GetInfo.again_calls, ht, GetInfo.callAll_calls, List.map_append, List.append_assoc]
    · -- The end mark closes this datagram, and with it the transaction.
      rw [overMessages_deliver_done none_done done]
      set t : GetInfo σ := { s with answer := received s.answer s.len (frames (ms ++ [last])) }
      refine ⟨(t.callAll operation ms).arg, ?_⟩
      rw [show s.calls ++ ms.map Message.bytes = (t.callAll operation ms).calls from
        (GetInfo.callAll_calls t ms).symm]
      rfl

/-- Every message is handed to the callback at most once, and the last one not
at all: a bound on the calls of a run that reaches an end mark. -/
theorem calls_lt_of_done (carried : List.Forall₂ (Carries cap) outcomes gs)
    (limit : cap ≤ 2 ^ 32 + 12) {e : Exit σ}
    (run : runEvents (getinfoStep operation) s outcomes = .error e) (done : e.point = .done) :
    e.calls.length < s.calls.length + gs.flatten.length := by
  -- Each round shows the callback at most its own messages.
  induction carried generalizing s with
  | nil => cases run
  | @cons outcome g outcomes gs first rest ih =>
    have round : Round s g (getinfoStep operation s outcome) :=
      getinfoStep_round first.delivered first.plain (first.within.trans limit)
    rw [runEvents_cons] at run
    rw [List.flatten_cons, List.length_append]
    cases hstep : getinfoStep operation s outcome with
    | error e' =>
      rw [hstep] at run round
      obtain rfl := Except.error.inj run
      cases round with
      | failed other => exact absurd done other
      | ended before x after split none_done range fits calls =>
        rw [calls, split]
        simp only [List.length_append, List.length_map, List.length_cons]
        omega
    | ok s' =>
      rw [hstep] at run round
      have bound := ih run
      cases round with
      | next seen part none_done calls whole =>
        have shorter := part.length_le
        rw [calls, List.length_append, List.length_map] at bound
        omega

/-- A run that hands over everything before its end mark has lost no byte. -/
theorem fits_of_delivers (carried : List.Forall₂ (Carries cap) outcomes gs)
    (limit : cap ≤ 2 ^ 32 + 12) {ms : List Message} {last : Message}
    (all : gs.flatten = ms ++ [last]) (last_done : last.type = nlmsgDone)
    (fresh : s.len = toInt32 s.answer.len) {e : Exit σ}
    (run : runEvents (getinfoStep operation) s outcomes = .error e) (done : e.point = .done)
    (calls : e.calls = s.calls ++ ms.map Message.bytes) :
    (∀ x ∈ ms, x.type ≠ nlmsgDone) ∧ FitsRounds (toSize s.len) gs := by
  induction carried generalizing s ms with
  | nil => cases run
  | @cons outcome g outcomes gs first rest ih =>
    have round : Round s g (getinfoStep operation s outcome) :=
      getinfoStep_round first.delivered first.plain (first.within.trans limit)
    have count : g.length + gs.flatten.length = ms.length + 1 := by
      simpa using congrArg List.length all
    rw [runEvents_cons] at run
    cases hstep : getinfoStep operation s outcome with
    | error e' =>
      rw [hstep] at run round
      obtain rfl := Except.error.inj run
      cases round with
      | failed other => exact absurd done other
      | ended before x after split none_done range fits seen =>
        -- As many calls as messages leave no room for anything behind the end mark.
        have same : before.length = ms.length := by
          have := congrArg List.length (seen.symm.trans calls)
          simpa using this
        have total : before.length + (after.length + 1) = g.length := by
          simp [split]
        obtain rfl : after = [] := List.eq_nil_of_length_eq_zero (by omega)
        have empty : gs.flatten = [] := List.eq_nil_of_length_eq_zero (by omega)
        rw [List.flatten_cons, empty, List.append_nil, split] at all
        obtain ⟨rfl, -⟩ := List.append_inj all same
        exact ⟨none_done, range, fits rfl, fitsRounds_of_flatten_nil empty⟩
    | ok s' =>
      rw [hstep] at run round
      cases round with
      | next seen part none_done seen_calls whole =>
        have bound := calls_lt_of_done rest limit run done
        rw [calls, seen_calls] at bound
        simp only [List.length_append, List.length_map] at bound
        -- A message missed in this round cannot be made up for later.
        obtain rfl : seen = g := part.eq_of_length_le (by omega)
        obtain ⟨range, fits, fresh', answer⟩ := whole rfl
        rcases append_eq_concat (List.flatten_cons ▸ all) with ⟨ms', rfl, all'⟩ | ⟨rfl, -⟩
        · obtain ⟨open', more⟩ := ih all' fresh' run
            (by rw [calls, seen_calls, List.map_append, List.append_assoc])
          rw [fresh', answer, received_len fresh range fits] at more
          refine ⟨fun y hy => ?_, range, fits, more⟩
          exact (List.mem_append.mp hy).elim (none_done y) (open' y)
        · exact absurd last_done (none_done last (by simp))

end Sequence

/-- **Complete delivery.** Let the kernel send well-formed datagrams without
error messages that end with an end mark and fit in the answer buffer. Every
message before the end mark reaches the callback once, in order and complete,
exactly if there is no earlier end mark and every datagram also fits in the length
that the first message of the datagram before it announces. -/
theorem getinfo_delivers_iff (operation : σ → List UInt8 → ℤ × σ) {shell : Bool}
    {block : Option Memory} {size : ℕ} {answer : Nlmsg}
    (alloc : nlmsgAllocReserve shell block size = some answer) {send : Send}
    (sent : 0 ≤ netlinkSend send) (arg : σ) {outcomes : List Recv} {gs : List (List Message)}
    (carried : List.Forall₂ (Carries answer.cap) outcomes gs) {ms : List Message} {last : Message}
    (all : gs.flatten = ms ++ [last]) (done : last.type = nlmsgDone) :
    (∃ arg', netlinkTransactionGetinfo operation send answer arg outcomes =
        .error { point := .done, value := 0, calls := ms.map Message.bytes, arg := arg' }) ↔
      (∀ x ∈ ms, x.type ≠ nlmsgDone) ∧
        FitsRounds (toSize (toInt32 (answer.cap % 2 ^ 32 : ℕ))) gs := by
  have len := nlmsgAllocReserve_len alloc
  have limit := nlmsgAllocReserve_cap_le alloc
  have quiet : nlmsgType answer.nlmsghdr 0 ≠ nlmsgError := by
    rw [nlmsgAllocReserve_type alloc]
    decide
  rw [netlinkTransactionGetinfo, if_neg (Int.not_lt.mpr sent), ← len]
  constructor
  · rintro ⟨arg', run⟩
    exact fits_of_delivers carried limit all done rfl run rfl rfl
  · rintro ⟨none_done, fits⟩
    exact getinfo_delivers carried all done none_done fits rfl quiet

/-- The answer buffer of `main`: `nlmsg_alloc_reserve(4096)` on zeroed memory. -/
def dumpAnswer : Nlmsg where
  nlmsghdr := ((Memory.fill (fun _ => 0) 0 4112 0).setU32 0 nlmsgHdrlen).setU32 0 4112
  cap := 4112

theorem dumpAnswer_alloc : nlmsgAllocReserve true (some fun _ => 0) 4096 = some dumpAnswer := rfl

/-- A successful receive of the given messages. -/
def Recv.of (g : List Message) : Recv := { datagram := some (frames g), errno := 0 }

/-- In one datagram, everything arrives. -/
theorem getinfo_delivers_iff_one_datagram :
    ∃ arg', netlinkTransactionGetinfo (fun _ _ => (0, ())) { sent := some 20, errno := 0 }
        dumpAnswer () [.of [shortEntry, longEntry, endMark]] =
      .error { point := .done, value := 0,
               calls := [shortEntry, longEntry].map Message.bytes, arg := arg' } := by
  have carried : List.Forall₂ (Carries dumpAnswer.cap) [.of [shortEntry, longEntry, endMark]]
      [[shortEntry, longEntry, endMark]] :=
    .cons ⟨rfl, by decide, by decide⟩ .nil
  have all : [[shortEntry, longEntry, endMark]].flatten = [shortEntry, longEntry] ++ [endMark] :=
    rfl
  refine (getinfo_delivers_iff _ dumpAnswer_alloc (netlinkSend_sent (by decide)) () carried all
    (by decide)).mpr ⟨by decide, ?_⟩
  rw [toSize_toInt32_of_lt (by decide)]
  decide

/-- The same messages in two datagrams. The second one is received with the 16
bytes that `shortEntry` announces, so `longEntry` is cut and dropped. -/
theorem getinfo_loses_second_datagram :
    List.Forall₂ (Carries dumpAnswer.cap) [.of [shortEntry], .of [longEntry, endMark]]
        [[shortEntry], [longEntry, endMark]] ∧
      ¬ ∃ arg', netlinkTransactionGetinfo (fun _ _ => (0, ())) { sent := some 20, errno := 0 }
          dumpAnswer () [.of [shortEntry], .of [longEntry, endMark]] =
        .error { point := .done, value := 0,
                 calls := [shortEntry, longEntry].map Message.bytes, arg := arg' } := by
  have carried : List.Forall₂ (Carries dumpAnswer.cap) [.of [shortEntry], .of [longEntry, endMark]]
      [[shortEntry], [longEntry, endMark]] :=
    .cons ⟨rfl, by decide, by decide⟩ (.cons ⟨rfl, by decide, by decide⟩ .nil)
  refine ⟨carried, ?_⟩
  rintro ⟨arg', run⟩
  have all : [[shortEntry], [longEntry, endMark]].flatten =
      [shortEntry, longEntry] ++ [endMark] := rfl
  rw [netlinkTransactionGetinfo,
    if_neg (Int.not_lt.mpr (netlinkSend_sent (by decide)))] at run
  have fits := (fits_of_delivers carried (by decide) all (by decide) rfl run rfl rfl).2
  have len : dumpAnswer.len = 4112 := nlmsgAllocReserve_len dumpAnswer_alloc
  rw [len, toSize_toInt32_of_lt (by decide)] at fits
  exact absurd fits (by decide)

end Rounds

/-! ### The receive length -/

/-- The length field after a receive with that field as receive length: its first
bytes come from the datagram, the others stay. -/
def nextField (field : ℕ) (outcome : Recv) : ℕ :=
  match outcome.datagram with
  | some bytes =>
    let data := bytes.take (toSize (toInt32 field))
    leNat (data.take 4 ++ (leBytes 4 field).drop data.length)
  | none => field

/-- The length field after a sequence of receives. -/
def announced (field : ℕ) (outcomes : List Recv) : ℕ := outcomes.foldl nextField field

section Lengths

variable {σ : Type} {operation : σ → List UInt8 → ℤ × σ}

theorem getinfoBody_answer {m : Memory} {c : ℕ × ℤ} {s s' : GetInfo σ}
    (body : getinfoBody operation m c s = .ok s') : s'.answer = s.answer := by
  unfold getinfoBody at body
  dsimp only at body
  split_ifs at body
  · cases body
  · cases body
  · obtain rfl := Except.ok.inj body
    rfl
  · cases body
  · cases body
  · obtain rfl := Except.ok.inj body
    rfl

/-- A round that does not return leaves the buffer as `netlink_rcv` left it, and
reads the next receive length from it unless the receive is repeated. -/
theorem getinfoStep_answer {s s' : GetInfo σ} {outcome : Recv}
    (step : getinfoStep operation s outcome = .ok s') :
    (netlinkRcv s.answer s.len outcome = (none, s'.answer) ∧ s'.len = s.len) ∨
      (∃ status, netlinkRcv s.answer s.len outcome = (some status, s'.answer)) ∧
        s'.len = toInt32 s'.answer.len := by
  unfold getinfoStep at step
  split at step
  case h_1 answer rcv =>
    obtain rfl := Except.ok.inj step
    exact .inl ⟨rcv, rfl⟩
  case h_2 status answer rcv =>
    split_ifs at step
    · cases step
    · cases step
    · refine .inr ?_
      cases walked : (nlmsgCursor answer.nlmsghdr).forEach
          (getinfoBody operation answer.nlmsghdr) (0, status) { s with answer } with
      | error e => rw [walked] at step; cases step
      | ok last =>
        rw [walked] at step
        obtain rfl : last.2.again = s' := Except.ok.inj step
        -- The walk over the messages leaves the buffer alone.
        have same : last.2.answer = answer :=
          Cursor.forEach_invariant _ (fun t => t.answer = answer)
            (fun _ _ _ _ body same => (getinfoBody_answer body).trans same) walked rfl
        rw [GetInfo.again_len, GetInfo.again_answer, same]
        exact ⟨⟨status, rcv⟩, rfl⟩

/-- The length field follows `nextField` as long as it is an `int`, and only a
receive that brought nothing is repeated. -/
theorem netlinkRcv_len {answer answer' : Nlmsg} {outcome : Recv} {status : Option ℤ}
    (rcv : netlinkRcv answer (toInt32 answer.len) outcome = (status, answer'))
    (small : answer.len < 2 ^ 31) :
    answer'.len = nextField answer.len outcome ∧ (status = none → answer' = answer) := by
  unfold nextField
  cases delivered : outcome.datagram with
  | none =>
    have same : answer' = answer := by
      simp only [netlinkRcv, delivered] at rcv
      split_ifs at rcv <;> exact (Prod.mk.inj rcv).2.symm
    exact ⟨congrArg Nlmsg.len same, fun _ => same⟩
  | some bytes =>
    have len := toSize_toInt32_of_lt small
    have ret : toInt32 (min (toSize (toInt32 answer.len)) bytes.length : ℕ) =
        (min (toSize (toInt32 answer.len)) bytes.length : ℕ) :=
      toInt32_of_range (by omega) (by omega)
    rw [netlinkRcv_datagram delivered, ret, if_neg (by omega)] at rcv
    obtain ⟨rfl, rfl⟩ := Prod.mk.inj rcv
    exact ⟨Memory.u32_write_start, fun h => by cases h⟩

/-- The length field has followed the datagrams, and is the receive length. -/
structure Tracks (field : ℕ) (outcomes : List Recv) (s : GetInfo σ) : Prop where
  field_eq : s.answer.len = announced field outcomes
  fresh : s.len = toInt32 s.answer.len

theorem Tracks.step {field : ℕ} {outcomes : List Recv} {s s' : GetInfo σ} {outcome : Recv}
    (tracks : Tracks field outcomes s) (small : s.answer.len < 2 ^ 31)
    (step : getinfoStep operation s outcome = .ok s') :
    Tracks field (outcomes ++ [outcome]) s' := by
  have field_eq : announced field (outcomes ++ [outcome]) = nextField s.answer.len outcome := by
    rw [tracks.field_eq, announced, List.foldl_append]
    rfl
  rcases getinfoStep_answer step with ⟨rcv, kept⟩ | ⟨⟨status, rcv⟩, fresh⟩
  · rw [tracks.fresh] at rcv
    obtain ⟨len, same⟩ := netlinkRcv_len rcv small
    exact ⟨len.trans field_eq.symm, by rw [kept, tracks.fresh, same rfl]⟩
  · rw [tracks.fresh] at rcv
    exact ⟨(netlinkRcv_len rcv small).1.trans field_eq.symm, fresh⟩

/-- As long as every length field that is followed is an `int`, all of them are
followed. -/
theorem tracks_of_small {s₀ : GetInfo σ} (fresh : s₀.len = toInt32 s₀.answer.len)
    {outcomes : List Recv}
    (small : ∀ k s, runEvents (getinfoStep operation) s₀ (outcomes.take k) = .ok s →
      Tracks s₀.answer.len (outcomes.take k) s → s.answer.len < 2 ^ 31)
    {k : ℕ} {s : GetInfo σ}
    (run : runEvents (getinfoStep operation) s₀ (outcomes.take k) = .ok s) :
    Tracks s₀.answer.len (outcomes.take k) s := by
  -- Induction on the rounds: a field that is an `int` determines the next field.
  induction k generalizing s with
  | zero =>
    obtain rfl : s₀ = s := Except.ok.inj run
    exact ⟨rfl, fresh⟩
  | succ k ih =>
    rw [List.take_add_one] at run ⊢
    cases hk : outcomes[k]? with
    | none =>
      rw [hk, Option.toList_none, List.append_nil] at run
      rw [Option.toList_none, List.append_nil]
      exact ih run
    | some outcome =>
      rw [hk, Option.toList_some] at run
      rw [Option.toList_some]
      obtain ⟨t, before, step⟩ := (runEvents_concat_ok _).mp run
      exact (ih before).step (small k t before (ih before)) step

/-- A length passed as `int` and then as `size_t` stays within the capacity
exactly if the field does and is itself an `int`. -/
theorem toSize_toInt32_le_iff {field cap : ℕ} (word : field < 2 ^ 32) (limit : cap ≤ 2 ^ 32 + 12) :
    toSize (toInt32 field) ≤ cap ↔ field ≤ cap ∧ field < 2 ^ 31 := by
  rcases lt_or_ge field (2 ^ 31) with small | large
  · rw [toSize_toInt32_of_lt small]
    omega
  · rw [toSize_toInt32_of_ge large word]
    omega

/-- **The receive length stays within the buffer** in every round, on its way
through `int` and `size_t`, exactly if in every round the length that the received
bytes announce is within the capacity and an `int`. -/
theorem getinfo_receives_within_iff (operation : σ → List UInt8 → ℤ × σ) {shell : Bool}
    {block : Option Memory} {size : ℕ} {answer : Nlmsg}
    (alloc : nlmsgAllocReserve shell block size = some answer) (send : Send) (arg : σ)
    (outcomes : List Recv) :
    (∀ k s, netlinkTransactionGetinfo operation send answer arg (outcomes.take k) = .ok s →
        s.len ≤ answer.cap ∧ toSize s.len ≤ answer.cap) ↔
      ∀ k s, netlinkTransactionGetinfo operation send answer arg (outcomes.take k) = .ok s →
        announced (answer.cap % 2 ^ 32) (outcomes.take k) ≤ answer.cap ∧
          announced (answer.cap % 2 ^ 32) (outcomes.take k) < 2 ^ 31 := by
  have len := nlmsgAllocReserve_len alloc
  have limit := nlmsgAllocReserve_cap_le alloc
  unfold netlinkTransactionGetinfo
  dsimp only
  split_ifs with failed
  · -- Nothing is received after a failed send.
    simp [GetInfo.exit]
  set s₀ : GetInfo σ := ⟨answer, toInt32 answer.len, netlinkSend send, arg, []⟩ with hs₀
  rw [← len]
  have word : ∀ s : GetInfo σ, s.answer.len < 2 ^ 32 := fun s => Memory.u32_lt
  constructor
  · intro within k s run
    have bound : ∀ k s, runEvents (getinfoStep operation) s₀ (outcomes.take k) = .ok s →
        Tracks s₀.answer.len (outcomes.take k) s → s.answer.len ≤ answer.cap ∧
          s.answer.len < 2 ^ 31 := fun k s run tracks =>
      (toSize_toInt32_le_iff (word s) limit).mp (tracks.fresh ▸ (within k s run).2)
    have tracks := tracks_of_small rfl (fun k s run tracks => (bound k s run tracks).2) run
    have field_eq : s.answer.len = announced answer.len (outcomes.take k) := tracks.field_eq
    rw [← field_eq]
    exact bound k s run tracks
  · intro small k s run
    have bound : ∀ k s, runEvents (getinfoStep operation) s₀ (outcomes.take k) = .ok s →
        Tracks s₀.answer.len (outcomes.take k) s → s.answer.len ≤ answer.cap ∧
          s.answer.len < 2 ^ 31 := fun k s run tracks => by
      have field_eq : s.answer.len = announced answer.len (outcomes.take k) := tracks.field_eq
      rw [field_eq]
      exact small k s run
    have tracks := tracks_of_small rfl (fun k s run tracks => (bound k s run tracks).2) run
    obtain ⟨within, int⟩ := bound k s run tracks
    rw [tracks.fresh]
    refine ⟨?_, (toSize_toInt32_le_iff (word s) limit).mpr ⟨within, int⟩⟩
    rw [toInt32_of_range (by omega) (by omega)]
    omega

/-- One entry in the buffer of `main` keeps the receive length within bounds. -/
theorem getinfo_receives_within_iff_entry :
    nlmsgAllocReserve true (some fun _ => 0) 4096 = some dumpAnswer ∧
      ∀ k s, netlinkTransactionGetinfo (fun _ _ => (0, ())) { sent := some 20, errno := 0 }
          dumpAnswer () ([Recv.of [shortEntry]].take k) = .ok s →
        s.len ≤ dumpAnswer.cap ∧ toSize s.len ≤ dumpAnswer.cap := by
  refine ⟨dumpAnswer_alloc, ?_⟩
  refine (getinfo_receives_within_iff _ dumpAnswer_alloc _ () _).mpr fun k s _ => ?_
  have entry : nextField 4112 (.of [shortEntry]) = 16 := by
    rw [nextField, Recv.of]
    dsimp only
    rw [toSize_toInt32_of_lt (by decide)]
    decide
  cases k with
  | zero => decide
  | succ k =>
    have field :
        announced (dumpAnswer.cap % 2 ^ 32) ([Recv.of [shortEntry]].take (k + 1)) = 16 := by
      rw [List.take_of_length_le (by simp)]
      exact entry
    rw [field]
    decide

/-- A datagram of 16 bytes whose first four announce 65535. -/
def oversized : Recv where
  datagram := some (leBytes 4 0xFFFF ++ leBytes 4 16 ++ List.replicate 8 0)
  errno := 0

/-- After `oversized`, the next `recvmsg` is told that a buffer of 4112 bytes has
room for 65535. -/
theorem getinfo_receive_overflows :
    nlmsgAllocReserve true (some fun _ => 0) 4096 = some dumpAnswer ∧
      ∃ s, netlinkTransactionGetinfo (fun _ _ => (0, ())) { sent := some 20, errno := 0 }
          dumpAnswer () [oversized] = .ok s ∧ dumpAnswer.cap = 4112 ∧ toSize s.len = 65535 := by
  have len : dumpAnswer.len = 4112 := nlmsgAllocReserve_len dumpAnswer_alloc
  have iov : toSize (toInt32 dumpAnswer.len) = 4112 := by
    rw [len, toSize_toInt32_of_lt (by decide)]
  set bytes : List UInt8 := leBytes 4 0xFFFF ++ leBytes 4 16 ++ List.replicate 8 0 with hbytes
  set answer := received dumpAnswer (toInt32 dumpAnswer.len) bytes with hanswer
  have held : answer.nlmsghdr.Holds 0 bytes := by
    have taken : answer.nlmsghdr.Holds 0 (bytes.take (toSize (toInt32 dumpAnswer.len))) :=
      received_holds
    rwa [iov, List.take_of_length_le (by decide)] at taken
  have field : nlmsgLen answer.nlmsghdr 0 = 65535 := by
    rw [nlmsgLen, Memory.u32, held.read_eq (k := 0) (by decide)]
    decide
  have head : nlmsgType answer.nlmsghdr 0 ≠ nlmsgError := by
    rw [nlmsgType, Memory.u16, held.read_eq (by decide)]
    decide
  have status : toInt32 (min (toSize (toInt32 dumpAnswer.len)) bytes.length : ℕ) = 16 := by
    rw [iov]
    exact toInt32_of_range (by decide) (by decide)
  have stop : (nlmsgCursor answer.nlmsghdr).ok (0, 16) = false := by
    rw [Bool.eq_false_iff]
    intro test
    have := (nlmsgCursor_ok field (by decide)).mp test
    omega
  rw [netlinkTransactionGetinfo, if_neg (Int.not_lt.mpr (netlinkSend_sent (by decide)))]
  set s₀ : GetInfo Unit := ⟨dumpAnswer, toInt32 dumpAnswer.len, _, (), []⟩
  have step : getinfoStep (fun _ _ => (0, ())) s₀ oversized =
      .ok ({ s₀ with answer } : GetInfo Unit).again := by
    have delivered : oversized.datagram = some bytes := rfl
    rw [getinfoStep, netlinkRcv_datagram delivered, status, if_neg (by decide)]
    dsimp only
    rw [if_neg (by decide), if_neg head, Cursor.forEach_stop _ _ stop]
    rfl
  refine ⟨dumpAnswer_alloc, ({ s₀ with answer } : GetInfo Unit).again, ?_, rfl, ?_⟩
  · rw [runEvents_cons, step]
    rfl
  · rw [GetInfo.again_len, Nlmsg.len, field, toSize_toInt32_of_lt (by decide)]

end Lengths

end LinuxProgram.Netlink
