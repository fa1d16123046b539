import LinuxProgram.Base.Systems
import LinuxProgram.DomainSock.Addresses
import Mathlib.Logic.Function.Basic

/-!
# The request and reply protocol of the container service

Clients (`hello.c`) send requests that carry their process id. The server
(`container.c`) answers each with the next value of a counter, addressed by the
process id in the request. Datagrams wait in the mailbox of the name they were sent
to, in order. The steps of the system are the sends, receives and time-outs of the
clients and the callbacks of the server, in any order.

The history of the run is part of the state: who has sent requests, how many the
server has taken, and which replies it has sent.

## Main definitions

* `Net`, `Action`, `step` — the service with any number of clients
* `Inv` — the counter, the mailboxes and the histories belong together

## Main results

* `inv_of_reachable` — the invariant
* `replies_safe` — one reply for each request taken, to the client that asked;
  no value twice; every client sees its values grow
-/

namespace LinuxProgram.DomainSock

open Base

/-- The processes of the clients: pairwise different positive `int` numbers. -/
structure Pids (ι : Type*) where
  pid : ι → ℤ
  positive : ∀ i, 0 < pid i
  int : ∀ i, pid i < 2 ^ 31
  distinct : Function.Injective pid

/-- Where a client is in its loop, and what it has received. -/
structure Client where
  /-- The loop variable `i`. -/
  round : ℕ
  /-- The request of this round has been sent. -/
  waiting : Bool
  received : List MsgData

/-- The state of the service, with the history of the run. -/
structure Net (ι : Type*) where
  /-- The datagrams that wait at each name. -/
  mailbox : List UInt8 → List (List UInt8)
  /-- `count` of the server. -/
  count : ℤ
  clients : ι → Client
  /-- The senders of all requests, in order. -/
  requests : List ι
  /-- The number of datagrams the server has taken. -/
  taken : ℕ
  /-- The replies the server has sent, with their addresses. -/
  replies : List (LocalAddr × MsgData)

/-- What can happen next. -/
inductive Action (ι : Type*)
  | send (i : ι)
  | serve
  | receive (i : ι)
  | timeout (i : ι)

/-- `sendto`: a datagram goes to the end of the mailbox of its name. -/
def post (mailbox : List UInt8 → List (List UInt8)) (addr : LocalAddr) (datagram : List UInt8) :
    List UInt8 → List (List UInt8) :=
  Function.update mailbox addr.name (mailbox addr.name ++ [datagram])

/-- The request that `main` of `hello.c` sends in every round. -/
def request (pid : ℤ) : LocalDataMsg := { type := 1, len := 2, pid }

section Model

variable {ι : Type*} [DecidableEq ι]

/-- `local_read_cb` on the datagram it takes. -/
def localReadCb (s : Net ι) (datagram : List UInt8) : Net ι :=
  let msg := LocalDataMsg.ofBytes datagram
  if msg.type = 1 then
    if msg.pid > 0 then
      let cMsg : MsgData := { msgType := msg.pid, data := s.count }
      { s with
        count := toInt32 (s.count + 1)
        mailbox := post s.mailbox (serverSendAddr msg.pid) cMsg.bytes
        replies := s.replies ++ [(serverSendAddr msg.pid, cMsg)] }
    -- A request without a process id, and any other type, is dropped.
    else s
  else s

/-- The client's loop goes on to the next round. -/
def Client.next (c : Client) (received : List MsgData) : Client :=
  { round := c.round + 1, waiting := false, received }

variable (P : Pids ι)

/-- One step of the service, if it is possible. -/
def step (s : Net ι) : Action ι → Option (Net ι)
  | .send i =>
    if (s.clients i).waiting = false ∧ (s.clients i).round < 100 then
      some { s with
        mailbox := post s.mailbox localAddrInit (request (P.pid i)).bytes
        clients := Function.update s.clients i { s.clients i with waiting := true }
        requests := s.requests ++ [i] }
    else none
  | .serve =>
    match s.mailbox localServerInit.name with
    | [] => none
    | datagram :: rest =>
      some (localReadCb { s with
        mailbox := Function.update s.mailbox localServerInit.name rest
        taken := s.taken + 1 } datagram)
  | .receive i =>
    if (s.clients i).waiting then
      match s.mailbox (clientAddrInit (P.pid i)).name with
      | [] => none
      | datagram :: rest =>
        let ret := (datagram.take 512).length
        let c := s.clients i
        some { s with
          mailbox := Function.update s.mailbox (clientAddrInit (P.pid i)).name rest
          clients := Function.update s.clients i (c.next
            (if ret > 0 then c.received ++ [MsgData.ofBytes datagram] else c.received)) }
    else none
  | .timeout i =>
    -- Also a `select` that fails: the client reads nothing and goes on.
    if (s.clients i).waiting then
      let c := s.clients i
      some { s with clients := Function.update s.clients i (c.next c.received) }
    else none

/-- The state in which all clients have bound their sockets and nothing was sent. -/
def initial : Net ι where
  mailbox _ := []
  count := 0
  clients _ := { round := 0, waiting := false, received := [] }
  requests := []
  taken := 0
  replies := []

/-- The service as a transition system. -/
def service : System (Net ι) (Action ι) where
  init s := s = initial
  step s a t := step P s a = some t

end Model

/-! ### The invariant -/

section Invariant

variable {ι : Type*} (P : Pids ι)

/-- The replies to the given requests, numbered from 0. -/
def repliesTo (owners : List ι) : List (LocalAddr × MsgData) :=
  owners.zipIdx.map fun r =>
    (clientAddrInit (P.pid r.1), { msgType := P.pid r.1, data := toInt32 r.2 })

/-- The replies that were addressed to a name. -/
def addressedTo (name : List UInt8) (replies : List (LocalAddr × MsgData)) : List MsgData :=
  (replies.filter fun r => r.1.name = name).map Prod.snd

/-- The counter, the mailboxes and the histories belong together. -/
structure Inv (s : Net ι) : Prop where
  /-- What waits at the server are the requests it has not taken. -/
  inbox : s.mailbox localServerInit.name =
    (s.requests.drop s.taken).map fun i => (request (P.pid i)).bytes
  taken_le : s.taken ≤ s.requests.length
  count : s.count = toInt32 s.taken
  replies : s.replies = repliesTo P (s.requests.take s.taken)
  /-- What a client has received and what waits for it are the replies to it. -/
  delivered : ∀ i, (s.clients i).received ++
      (s.mailbox (clientAddrInit (P.pid i)).name).map MsgData.ofBytes =
    addressedTo (clientAddrInit (P.pid i)).name s.replies
  nonempty : ∀ i, ∀ datagram ∈ s.mailbox (clientAddrInit (P.pid i)).name, datagram ≠ []

variable {P}

theorem repliesTo_concat (owners : List ι) (i : ι) :
    repliesTo P (owners ++ [i]) = repliesTo P owners ++
      [(clientAddrInit (P.pid i), { msgType := P.pid i, data := toInt32 owners.length })] := by
  simp [repliesTo, List.zipIdx_append]

theorem addressedTo_concat (name : List UInt8) (replies : List (LocalAddr × MsgData))
    (r : LocalAddr × MsgData) :
    addressedTo name (replies ++ [r]) =
      addressedTo name replies ++ if r.1.name = name then [r.2] else [] := by
  unfold addressedTo
  rw [List.filter_append, List.map_append]
  congr 1
  split_ifs with h <;> simp [h]

/-- A client's request is understood by the server. -/
theorem request_ofBytes (i : ι) :
    LocalDataMsg.ofBytes (request (P.pid i)).bytes = request (P.pid i) := by
  have positive := P.positive i
  have int := P.int i
  refine LocalDataMsg.ofBytes_bytes ?_ ?_ ⟨?_, int⟩
  · simp [request]
  · simp [request]
  · simp only [request]
    omega

/-- The server answers a client's request at the name the client has bound. -/
theorem localReadCb_request (s : Net ι) (i : ι) :
    localReadCb s (request (P.pid i)).bytes =
      { s with
        count := toInt32 (s.count + 1)
        mailbox := post s.mailbox (clientAddrInit (P.pid i))
          (MsgData.mk (P.pid i) s.count).bytes
        replies := s.replies ++ [(clientAddrInit (P.pid i), ⟨P.pid i, s.count⟩)] } := by
  have positive := P.positive i
  unfold localReadCb
  rw [request_ofBytes]
  simp only [request, if_true, positive]
  rfl

theorem name_ne_server (i : ι) : (clientAddrInit (P.pid i)).name ≠ localServerInit.name :=
  clientAddrInit_name_ne_server _

theorem name_ne_name {i j : ι} (other : i ≠ j) :
    (clientAddrInit (P.pid i)).name ≠ (clientAddrInit (P.pid j)).name := fun same =>
  other (P.distinct (clientAddrInit_name_injective same))

theorem inv_initial : Inv P (initial : Net ι) := by
  have zero : toInt32 (0 : ℕ) = 0 := toInt32_of_range (by decide) (by decide)
  refine ⟨rfl, Nat.le_refl 0, zero.symm, rfl, fun _ => rfl, ?_⟩
  intro i datagram waiting
  exact absurd waiting List.not_mem_nil

namespace Inv

variable [DecidableEq ι] {s : Net ι}

/-- A change of one client that leaves alone what it has received. -/
theorem received_update {i : ι} {c : Client} (same : c.received = (s.clients i).received) (j : ι) :
    (Function.update s.clients i c j).received = (s.clients j).received := by
  by_cases own : j = i
  · rw [own, Function.update_self, same]
  · rw [Function.update_of_ne own]

/-- A request joins the requests that wait at the server. -/
theorem send (inv : Inv P s) (i : ι) (c : Client) (same : c.received = (s.clients i).received) :
    Inv P { s with
      mailbox := post s.mailbox localAddrInit (request (P.pid i)).bytes
      clients := Function.update s.clients i c
      requests := s.requests ++ [i] } := by
  have taken_le := inv.taken_le
  -- The server's name is nobody else's, so no client finds the request in its mailbox.
  have elsewhere : ∀ j, post s.mailbox localAddrInit (request (P.pid i)).bytes
      (clientAddrInit (P.pid j)).name = s.mailbox (clientAddrInit (P.pid j)).name := fun j =>
    Function.update_of_ne (name_ne_server j) _ _
  constructor
  · change Function.update s.mailbox localServerInit.name _ localServerInit.name = _
    rw [Function.update_self, List.drop_append_of_le_length taken_le, List.map_append, ← inv.inbox]
    rfl
  · change s.taken ≤ (s.requests ++ [i]).length
    rw [List.length_append]
    omega
  · exact inv.count
  · change s.replies = repliesTo P ((s.requests ++ [i]).take s.taken)
    rw [List.take_append_of_le_length taken_le]
    exact inv.replies
  · intro j
    dsimp only
    rw [elsewhere, received_update same, inv.delivered j]
  · intro j datagram waiting
    dsimp only at waiting
    rw [elsewhere] at waiting
    exact inv.nonempty j datagram waiting

/-- A client that reads nothing stays in step. -/
theorem timeout (inv : Inv P s) (i : ι) (c : Client) (same : c.received = (s.clients i).received) :
    Inv P { s with clients := Function.update s.clients i c } := by
  refine ⟨inv.inbox, inv.taken_le, inv.count, inv.replies, ?_, inv.nonempty⟩
  intro j
  dsimp only
  rw [received_update same, inv.delivered j]

/-- A reply moves from the mailbox of a client to what the client has received. -/
theorem receive (inv : Inv P s) (i : ι) {datagram : List UInt8} {rest : List (List UInt8)}
    (first : s.mailbox (clientAddrInit (P.pid i)).name = datagram :: rest) (c : Client)
    (reads : c.received = (s.clients i).received ++ [MsgData.ofBytes datagram]) :
    Inv P { s with
      mailbox := Function.update s.mailbox (clientAddrInit (P.pid i)).name rest
      clients := Function.update s.clients i c } := by
  constructor
  · dsimp only
    rw [Function.update_of_ne (name_ne_server i).symm]
    exact inv.inbox
  · exact inv.taken_le
  · exact inv.count
  · exact inv.replies
  · intro j
    dsimp only
    rw [← inv.delivered j]
    by_cases own : j = i
    · rw [own, Function.update_self, Function.update_self, reads, first, List.map_cons,
        List.append_assoc]
      rfl
    · rw [Function.update_of_ne own, Function.update_of_ne (name_ne_name own)]
  · intro j other waiting
    by_cases own : j = i
    · subst own
      dsimp only at waiting
      rw [Function.update_self] at waiting
      exact inv.nonempty j other (by rw [first]; exact List.mem_cons_of_mem _ waiting)
    · dsimp only at waiting
      rw [Function.update_of_ne (name_ne_name own)] at waiting
      exact inv.nonempty j other waiting

/-- The server takes the oldest request and answers it. -/
theorem serve (inv : Inv P s) {datagram : List UInt8} {rest : List (List UInt8)}
    (first : s.mailbox localServerInit.name = datagram :: rest) :
    Inv P (localReadCb { s with
      mailbox := Function.update s.mailbox localServerInit.name rest
      taken := s.taken + 1 } datagram) := by
  -- The datagram is the request of the client `i` that is next in line.
  obtain ⟨i, more, next, rfl, rfl⟩ := List.map_eq_cons_iff.mp (inv.inbox.symm.trans first)
  have at_next : s.requests[s.taken]? = some i := by
    rw [← List.head?_drop, next, List.head?_cons]
  have taken_lt : s.taken < s.requests.length := (List.getElem?_eq_some_iff.mp at_next).1
  have taken_next : s.requests.take (s.taken + 1) = s.requests.take s.taken ++ [i] := by
    rw [List.take_add_one, at_next, Option.toList_some]
  have number : (s.requests.take s.taken).length = s.taken := by
    rw [List.length_take]
    omega
  have count_next : toInt32 (s.count + 1) = toInt32 ((s.taken + 1 : ℕ) : ℤ) := by
    rw [inv.count, toInt32_succ]
    rfl
  have reply : MsgData.ofBytes (MsgData.mk (P.pid i) s.count).bytes = ⟨P.pid i, s.count⟩ := by
    have positive := P.positive i
    have int := P.int i
    refine MsgData.ofBytes_bytes ⟨by dsimp only; omega, by dsimp only; omega⟩ ?_
    rw [inv.count]
    exact ⟨toInt32_lower _, toInt32_upper _⟩
  -- What the mailboxes hold after the reply has been sent.
  set box := post (Function.update s.mailbox localServerInit.name
    (more.map fun i => (request (P.pid i)).bytes)) (clientAddrInit (P.pid i))
    (MsgData.mk (P.pid i) s.count).bytes with hbox
  have box_server : box localServerInit.name = more.map fun i => (request (P.pid i)).bytes := by
    rw [hbox, post, Function.update_of_ne (name_ne_server i).symm, Function.update_self]
  have box_own : box (clientAddrInit (P.pid i)).name =
      s.mailbox (clientAddrInit (P.pid i)).name ++ [(MsgData.mk (P.pid i) s.count).bytes] := by
    rw [hbox, post, Function.update_self, Function.update_of_ne (name_ne_server i)]
  have box_other : ∀ j, j ≠ i →
      box (clientAddrInit (P.pid j)).name = s.mailbox (clientAddrInit (P.pid j)).name := by
    intro j other
    rw [hbox, post, Function.update_of_ne (name_ne_name other),
      Function.update_of_ne (name_ne_server j)]
  rw [localReadCb_request]
  constructor
  · change box localServerInit.name = (s.requests.drop (s.taken + 1)).map _
    rw [box_server, ← List.tail_drop, next, List.tail_cons]
  · exact taken_lt
  · exact count_next
  · change s.replies ++ [(clientAddrInit (P.pid i), ⟨P.pid i, s.count⟩)] =
      repliesTo P (s.requests.take (s.taken + 1))
    rw [taken_next, repliesTo_concat, number, ← inv.replies, inv.count]
  · intro j
    change (s.clients j).received ++ (box (clientAddrInit (P.pid j)).name).map MsgData.ofBytes =
      addressedTo _ (s.replies ++ [(clientAddrInit (P.pid i), ⟨P.pid i, s.count⟩)])
    rw [addressedTo_concat, ← inv.delivered j]
    by_cases own : j = i
    · subst own
      rw [box_own, List.map_append, if_pos rfl, List.append_assoc, List.map_singleton, reply]
    · rw [box_other j own, if_neg (name_ne_name (Ne.symm own)), List.append_nil]
  · intro j other waiting
    change other ∈ box (clientAddrInit (P.pid j)).name at waiting
    by_cases own : j = i
    · subst own
      rw [box_own] at waiting
      rcases List.mem_append.mp waiting with old | new
      · exact inv.nonempty j other old
      · rw [List.mem_singleton.mp new]
        simp [MsgData.bytes]
    · rw [box_other j own] at waiting
      exact inv.nonempty j other waiting

/-- Every step keeps the invariant. -/
theorem step (inv : Inv P s) {a : Action ι} {t : Net ι} (taken : step P s a = some t) :
    Inv P t := by
  cases a with
  | send i =>
    simp only [DomainSock.step] at taken
    split_ifs at taken
    obtain rfl := Option.some.inj taken
    exact inv.send i _ rfl
  | serve =>
    simp only [DomainSock.step] at taken
    split at taken
    · cases taken
    case h_2 datagram rest first =>
      obtain rfl := Option.some.inj taken
      exact inv.serve first
  | receive i =>
    simp only [DomainSock.step] at taken
    split_ifs at taken
    split at taken
    · cases taken
    case h_2 datagram rest first =>
      obtain rfl := Option.some.inj taken
      -- A reply is never empty, so the client keeps it.
      have some_bytes : datagram ≠ [] := inv.nonempty i datagram (by simp [first])
      have ret : (datagram.take 512).length > 0 := by
        rw [List.length_take]
        have := List.length_pos_of_ne_nil some_bytes
        omega
      refine inv.receive i first _ ?_
      simp only [Client.next, ret, if_true]
  | timeout i =>
    simp only [DomainSock.step] at taken
    split_ifs at taken
    obtain rfl := Option.some.inj taken
    exact inv.timeout i _ rfl

end Inv

theorem inv_of_reachable [DecidableEq ι] {s : Net ι} (reach : (service P).Reachable s) :
    Inv P s := by
  refine reach.invariant ?_ fun s a t taken inv => inv.step taken
  rintro s rfl
  exact inv_initial

/-! ### Safety -/

/-- What a run with fewer than `2 ^ 31` requests promises. -/
structure Safe (P : Pids ι) (s : Net ι) : Prop where
  taken_le : s.taken ≤ s.requests.length
  /-- One reply for each request taken, in order, numbered from 0, at the address that
  the sender of the request has bound. -/
  replies : s.replies = (s.requests.take s.taken).zipIdx.map fun r =>
    (clientAddrInit (P.pid r.1), { msgType := P.pid r.1, data := r.2 })
  /-- Both sides build the same address, in a buffer that is large enough. -/
  same_addr : ∀ i, serverSendAddr (P.pid i) = clientAddrInit (P.pid i)
  fits : ∀ i, (pidText (P.pid i)).length = 20
  names_differ : ∀ i j, i ≠ j → (clientAddrInit (P.pid i)).name ≠ (clientAddrInit (P.pid j)).name
  server_differs : ∀ i, (clientAddrInit (P.pid i)).name ≠ localServerInit.name
  /-- Every reply reaches the client it is addressed to, and no other. -/
  delivered : ∀ i, (s.clients i).received ++
      (s.mailbox (clientAddrInit (P.pid i)).name).map MsgData.ofBytes =
    addressedTo (clientAddrInit (P.pid i)).name s.replies
  inbox : s.mailbox localServerInit.name =
    (s.requests.drop s.taken).map fun i => (request (P.pid i)).bytes
  values_differ : (s.replies.map fun r => r.2.data).Nodup
  increasing : ∀ i, ((s.clients i).received.map MsgData.data).Pairwise (· < ·)

/-- As long as the numbers are `int` numbers, the counter does not wrap around. -/
theorem repliesTo_eq {owners : List ι} (few : owners.length ≤ 2 ^ 31) :
    repliesTo P owners = owners.zipIdx.map fun r =>
      (clientAddrInit (P.pid r.1), { msgType := P.pid r.1, data := (r.2 : ℤ) }) := by
  apply List.map_congr_left
  rintro ⟨i, k⟩ hk
  have small := List.snd_lt_of_mem_zipIdx hk
  have exact_value : toInt32 k = k := toInt32_of_range (by omega) (by dsimp only at small; omega)
  dsimp only
  rw [exact_value]

theorem repliesTo_increasing {owners : List ι} (few : owners.length ≤ 2 ^ 31) :
    ((repliesTo P owners).map fun r => r.2.data).Pairwise (· < ·) := by
  have values : ((repliesTo P owners).map fun r => r.2.data) =
      (List.range' 0 owners.length).map fun k : ℕ => (k : ℤ) := by
    rw [repliesTo_eq few, List.map_map, ← List.zipIdx_map_snd, List.map_map]
    rfl
  rw [values, List.pairwise_map]
  refine List.Pairwise.imp ?_ (List.pairwise_lt_range' ..)
  intro a b less
  exact Int.ofNat_lt.mpr less

/-- **The protocol is safe** in every state that any interleaving of sends, callbacks,
receives and time-outs reaches with fewer than `2 ^ 31` requests. -/
theorem replies_safe [DecidableEq ι] (P : Pids ι) {s : Net ι} (reach : (service P).Reachable s)
    (few : s.requests.length < 2 ^ 31) : Safe P s := by
  have inv := inv_of_reachable reach
  have few_taken : (s.requests.take s.taken).length ≤ 2 ^ 31 := by
    rw [List.length_take]
    omega
  have growing : (s.replies.map fun r => r.2.data).Pairwise (· < ·) := by
    rw [inv.replies]
    exact repliesTo_increasing few_taken
  refine
    { taken_le := inv.taken_le
      replies := inv.replies.trans (repliesTo_eq few_taken)
      same_addr := fun _ => rfl
      fits := fun i => ?_
      names_differ := fun i j other => name_ne_name other
      server_differs := name_ne_server
      delivered := inv.delivered
      inbox := inv.inbox
      values_differ := growing.imp ne_of_lt
      increasing := fun i => ?_ }
  · have positive := P.positive i
    exact pidText_length (by omega) (P.int i)
  · -- What a client has received is part of all the replies, in the same order.
    have part : List.Sublist ((s.clients i).received.map MsgData.data)
        (s.replies.map fun r => r.2.data) := by
      have read := List.sublist_append_left (s.clients i).received
        ((s.mailbox (clientAddrInit (P.pid i)).name).map MsgData.ofBytes)
      rw [inv.delivered i] at read
      refine (read.map MsgData.data).trans ?_
      rw [addressedTo, List.map_map]
      exact List.filter_sublist.map _
    exact growing.sublist part

end Invariant

/-- Two clients, with process ids 100 and 2000. -/
def twoClients : Pids Bool where
  pid b := if b then 100 else 2000
  positive := by decide
  int := by decide
  distinct := by decide

/-- Actions that are possible one after the other are a run of the service. -/
theorem steps_of_foldlM {ι : Type*} [DecidableEq ι] {P : Pids ι} {s t : Net ι}
    {run : List (Action ι)} (ends : run.foldlM (step P) s = some t) :
    (service P).Steps s run t := by
  induction run generalizing s with
  | nil =>
    cases ends
    exact .refl
  | cons a run ih =>
    rw [List.foldlM_cons] at ends
    obtain ⟨next, first, rest⟩ := Option.bind_eq_some_iff.mp ends
    exact (System.Steps.single (show (service P).step s a next from first)).trans (ih rest)

/-- Both clients ask, and the one that asked last reads its reply first. -/
def crossedExchange : List (Action Bool) :=
  [.send true, .send false, .serve, .serve, .receive false, .receive true]

theorem replies_safe_two_clients :
    ∃ s, (service twoClients).Reachable s ∧ s.requests = [true, false] ∧
      (s.clients true).received = [⟨100, 0⟩] ∧ (s.clients false).received = [⟨2000, 1⟩] ∧
      Safe twoClients s := by
  have result : (crossedExchange.foldlM (step twoClients) initial).map
      (fun s => (s.requests, (s.clients true).received, (s.clients false).received)) =
        some ([true, false], [⟨100, 0⟩], [⟨2000, 1⟩]) := by
    decide +kernel
  obtain ⟨s, ends, histories⟩ := Option.map_eq_some_iff.mp result
  obtain ⟨requests, first, second⟩ : s.requests = [true, false] ∧
      (s.clients true).received = [⟨100, 0⟩] ∧ (s.clients false).received = [⟨2000, 1⟩] := by
    simpa using histories
  have reach : (service twoClients).Reachable s := ⟨initial, _, rfl, steps_of_foldlM ends⟩
  refine ⟨s, reach, requests, first, second, replies_safe twoClients reach ?_⟩
  rw [requests]
  decide

end LinuxProgram.DomainSock
