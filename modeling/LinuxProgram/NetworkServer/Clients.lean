import LinuxProgram.Base.Systems
import LinuxProgram.Base.TailQueue
import LinuxProgram.Base.Text

/-!
# The clients of the event-driven server

`network/server/server.c` keeps its clients in the tail queue `head`. `accept_cb`
allocates a `client`, puts it in front and registers a read event for it.
`socket_read_cb` reads from a client; on an error, and on the message `exit`, it closes
the descriptor and removes the client from inside a loop over the queue. `client_free`
removes all.

The model keeps the queue on an explicit heap, whose addresses are the numbers that
`calloc` returns. Beside it stand the descriptors that the kernel has open: the kernel
gives a number again as soon as it has been closed, so a connection is known by the
address of its `client` and not by its descriptor.

## Main definitions

* `acceptCb`, `socketReadCb`, `clientFree` — the functions of the source
* `callbacks` — all sequences of callbacks

## Main results

* `Inv.callback` — every callback returns and keeps the invariant
* `head_of_reachable` — the queue is well linked and its elements have the open
  descriptors, latest first
-/

namespace LinuxProgram.NetworkServer

open Base

/-- A registered read event. The descriptor is the one `event_get_fd` returns; `client`
says which connection the event was made for. -/
structure Event where
  client : ℕ
  fd : ℤ
  deriving DecidableEq

/-- What `read(fd, msg, sizeof(msg) - 1)` returns: a negative number, or the number of
bytes it has stored in `msg`. -/
inductive ReadResult
  | error
  | data (bytes : List UInt8) (fits : bytes.length ≤ 1023)

/-- The value of the variable `len`. -/
def ReadResult.len : ReadResult → ℤ
  | error => -1
  | data bytes _ => bytes.length

/-- The state of the server. -/
structure Server where
  head : TailQueue ℕ
  /-- The field `fd` of a `client`. -/
  fd : ℕ → ℤ
  /-- The clients that are allocated. None is freed after it was in the queue. -/
  clients : List ℕ
  events : List Event
  /-- What the kernel has accepted and not yet closed, latest first. -/
  opened : List Event
  exited : Bool

/-- `"exit"`. -/
def exitText : List UInt8 := [0x65, 0x78, 0x69, 0x74]

namespace Server

/-- `close`. A descriptor that is not open is left alone. -/
def close (s : Server) (fd : ℤ) : Server := { s with opened := s.opened.filter (·.fd ≠ fd) }

/-- `event_free`. -/
def eventFree (s : Server) (ev : Event) : Server := { s with events := s.events.filter (· ≠ ev) }

/-- The loop in `socket_read_cb` that removes the clients with a descriptor. The result
is `none` if the loop has not ended after as many rounds as there are clients. -/
def removeClients (s : Server) (fd : ℤ) : Option Server := do
  let head ← s.head.forEach (fun pc head => if s.fd pc = fd then head.remove pc else head)
    (s.clients.length + 1) s.head.first
  return { s with head }

/-- `accept_cb`, given what `calloc` and `accept` return. -/
def acceptCb (s : Server) (calloc : Option ℕ) (sockfd : ℤ) : Server :=
  match calloc with
  | none => s
  | some pc =>
    -- The client is freed before anything points to it.
    if sockfd = -1 then s
    else
      { s with
        head := s.head.insertHead pc
        fd := Function.update s.fd pc sockfd
        clients := pc :: s.clients
        events := ⟨pc, sockfd⟩ :: s.events
        opened := ⟨pc, sockfd⟩ :: s.opened }

/-- `socket_read_cb`, given what `read` returns. -/
def socketReadCb (s : Server) (fd : ℤ) (ev : Event) : ReadResult → Option Server
  | .error => do
    let s ← (s.close ev.fd).removeClients fd
    return s.eventFree ev
  | .data bytes _ =>
    -- Also the end of the file, with no bytes at all, comes here.
    let msg := bytes ++ [0]
    if strncmp exitText msg 4 = 0 then do
      let s ← (s.close ev.fd).removeClients fd
      return { s with exited := true }
    else some s

/-- `client_free`. -/
def clientFree (s : Server) : Option Server := do
  let head ← s.head.forEach (fun pc head => head.remove pc) (s.clients.length + 1) s.head.first
  return { s with head }

end Server

/-- The callbacks, with the results of their system calls. -/
inductive Callback
  | accept (calloc : Option ℕ) (sockfd : ℤ)
  | read (ev : Event) (result : ReadResult)

/-- A callback runs. The library passes an event its own descriptor. -/
def Callback.run (s : Server) : Callback → Option Server
  | accept calloc sockfd => some (s.acceptCb calloc sockfd)
  | read ev result => s.socketReadCb ev.fd ev result

/-- Memory that is in use is not allocated again, and `accept` does not return a
descriptor that is open. -/
def Callback.Possible (s : Server) : Callback → Prop
  | accept calloc sockfd => (∀ pc ∈ calloc, pc ∉ s.clients) ∧ sockfd ∉ s.opened.map (·.fd)
  | read _ _ => True

/-- `main` after `TAILQ_INIT`, before `event_base_dispatch`. -/
structure Started (s : Server) : Prop where
  head : ∃ uninitialised : TailQueue ℕ, s.head = uninitialised.init
  clients : s.clients = []
  events : s.events = []
  opened : s.opened = []
  exited : s.exited = false

/-- A server without connections. -/
def idle : Server :=
  { head := ⟨none, .first, fun _ => none, fun _ => .first⟩, fd := fun _ => 0, clients := []
    events := [], opened := [], exited := false }

theorem started_idle : Started idle := ⟨⟨idle.head, rfl⟩, rfl, rfl, rfl, rfl⟩

/-- All sequences of callbacks, until the process exits. -/
def callbacks : System Server Callback where
  init := Started
  step s callback t := s.exited = false ∧ callback.Possible s ∧ callback.run s = some t

/-! ### The invariant -/

/-- The queue consists of the clients whose descriptors are open. -/
structure Inv (s : Server) : Prop where
  linked : s.head.Linked (s.opened.map (·.client))
  fd : ∀ ev ∈ s.opened, s.fd ev.client = ev.fd
  distinct : (s.opened.map (·.fd)).Nodup
  allocated : ∀ ev ∈ s.opened, ev.client ∈ s.clients

/-- The loop changes the queue only. -/
theorem Server.removeClients_some {s t : Server} {fd : ℤ} (loop : s.removeClients fd = some t) :
    ∃ head, t = { s with head } := by
  obtain ⟨head, -, result⟩ := Option.bind_eq_some_iff.mp loop
  exact ⟨head, (Option.some.inj result).symm⟩

/-- What a callback that returns has done after an error. -/
theorem Server.socketReadCb_error {s t : Server} {fd : ℤ} {ev : Event}
    (run : s.socketReadCb fd ev .error = some t) :
    ∃ head, t = { s.close ev.fd with head }.eventFree ev := by
  obtain ⟨s', loop, freed⟩ := Option.bind_eq_some_iff.mp run
  obtain ⟨head, rfl⟩ := removeClients_some loop
  exact ⟨head, (Option.some.inj freed).symm⟩

/-- What a callback that returns has done with a message. -/
theorem Server.socketReadCb_data {s t : Server} {fd : ℤ} {ev : Event} {bytes : List UInt8}
    (fits : bytes.length ≤ 1023) (run : s.socketReadCb fd ev (.data bytes fits) = some t) :
    (∃ head, t = { s.close ev.fd with head, exited := true }) ∨ t = s := by
  simp only [socketReadCb] at run
  split_ifs at run
  · obtain ⟨s', loop, left⟩ := Option.bind_eq_some_iff.mp run
    obtain ⟨head, rfl⟩ := removeClients_some loop
    exact .inl ⟨head, (Option.some.inj left).symm⟩
  · exact .inr (Option.some.inj run).symm

theorem Server.removeClients_eq {s : Server} {fd : ℤ} {head : TailQueue ℕ}
    (loop : s.head.forEach (fun pc head => if s.fd pc = fd then head.remove pc else head)
      (s.clients.length + 1) s.head.first = some head) :
    s.removeClients fd = some { s with head } := by
  rw [Server.removeClients, loop]
  rfl

namespace Inv

variable {s : Server}

theorem of_started (started : Started s) : Inv s := by
  obtain ⟨q, head⟩ := started.head
  constructor
  · rw [head, started.opened]
    exact TailQueue.linked_init q
  all_goals simp [started.opened]

/-- The bound on the loops over the queue is never reached. -/
theorem length_lt (inv : Inv s) : (s.opened.map (·.client)).length < s.clients.length + 1 := by
  have allocated : s.opened.map (·.client) ⊆ s.clients := by
    intro pc member
    obtain ⟨ev, opened, rfl⟩ := List.mem_map.mp member
    exact inv.allocated ev opened
  exact Nat.lt_succ_of_le (inv.linked.nodup.subperm allocated).length_le

/-- The clients in the queue have the open descriptors. -/
theorem map_fd (inv : Inv s) :
    (s.opened.map (·.client)).map s.fd = s.opened.map (·.fd) := by
  rw [List.map_map]
  exact List.map_congr_left inv.fd

/-- A new connection comes first. -/
theorem acceptCb (inv : Inv s) {calloc : Option ℕ} {sockfd : ℤ}
    (possible : Callback.Possible s (.accept calloc sockfd)) : Inv (s.acceptCb calloc sockfd) := by
  obtain ⟨free, fresh⟩ := possible
  cases calloc with
  | none => exact inv
  | some pc =>
    rw [Server.acceptCb]
    split_ifs with failed
    · exact inv
    · -- `calloc` has returned memory that no client in the queue occupies.
      have unused : pc ∉ s.clients := free pc rfl
      have other : ∀ ev ∈ s.opened, ev.client ≠ pc := fun ev opened =>
        ne_of_mem_of_not_mem (inv.allocated ev opened) unused
      constructor
      · refine inv.linked.insertHead ?_
        intro member
        obtain ⟨ev, opened, same⟩ := List.mem_map.mp member
        exact other ev opened same
      · intro ev opened
        rcases List.mem_cons.mp opened with rfl | before
        · exact Function.update_self ..
        · exact (Function.update_of_ne (other ev before) ..).trans (inv.fd ev before)
      · exact List.nodup_cons.mpr ⟨fresh, inv.distinct⟩
      · intro ev opened
        rcases List.mem_cons.mp opened with rfl | before
        · exact List.mem_cons_self
        · exact List.mem_cons_of_mem _ (inv.allocated ev before)

/-- Closing a descriptor and removing the clients that have it. -/
theorem close_removeClients (inv : Inv s) (fd : ℤ) :
    ∃ head, (s.close fd).removeClients fd = some { s.close fd with head } ∧
      Inv { s.close fd with head } := by
  obtain ⟨head, loop, linked⟩ :=
    TailQueue.forEach_remove (fun pc => s.fd pc = fd) inv.linked inv.length_lt
  -- The loop keeps the clients of the descriptors that stay open.
  have kept : (s.opened.map (·.client)).filter (fun pc => ¬ s.fd pc = fd) =
      (s.opened.filter (·.fd ≠ fd)).map (·.client) := by
    rw [List.filter_map]
    congr 1
    apply List.filter_congr
    intro ev opened
    simp [inv.fd ev opened]
  refine ⟨head, Server.removeClients_eq (s := s.close fd) loop, ?_⟩
  constructor
  · rw [kept] at linked
    exact linked
  · intro ev opened
    exact inv.fd ev (List.mem_of_mem_filter opened)
  · exact inv.distinct.sublist (List.filter_sublist.map _)
  · intro ev opened
    exact inv.allocated ev (List.mem_of_mem_filter opened)

/-- Every callback returns. -/
theorem callback (inv : Inv s) {callback : Callback} (possible : callback.Possible s) :
    ∃ t, callback.run s = some t ∧ Inv t := by
  cases callback with
  | accept calloc sockfd => exact ⟨_, rfl, inv.acceptCb possible⟩
  | read ev result =>
    obtain ⟨head, removed, inv'⟩ := inv.close_removeClients ev.fd
    cases result with
    | error =>
      refine ⟨{ s.close ev.fd with head }.eventFree ev, ?_, ?_⟩
      · simp only [Callback.run, Server.socketReadCb, removed]
        rfl
      · exact ⟨inv'.linked, inv'.fd, inv'.distinct, inv'.allocated⟩
    | data bytes fits =>
      by_cases leaves : strncmp exitText (bytes ++ [0]) 4 = 0
      · refine ⟨{ s.close ev.fd with head, exited := true }, ?_, ?_⟩
        · simp only [Callback.run, Server.socketReadCb, if_pos leaves, removed]
          rfl
        · exact ⟨inv'.linked, inv'.fd, inv'.distinct, inv'.allocated⟩
      · refine ⟨s, ?_, inv⟩
        simp only [Callback.run, Server.socketReadCb, if_neg leaves]

/-- `client_free` empties the queue. -/
theorem clientFree (inv : Inv s) :
    ∃ head, s.clientFree = some { s with head } ∧ head.Linked [] := by
  obtain ⟨head, loop, linked⟩ :=
    TailQueue.forEach_remove (fun _ => True) inv.linked inv.length_lt
  simp only [if_true] at loop
  refine ⟨head, ?_, by simpa using linked⟩
  rw [Server.clientFree, loop]
  rfl

theorem of_reachable (reach : callbacks.Reachable s) : Inv s := by
  refine reach.invariant (fun s => of_started) ?_
  rintro s callback t ⟨-, possible, run⟩ inv
  obtain ⟨t', run', inv'⟩ := inv.callback possible
  obtain rfl := Option.some.inj (run.symm.trans run')
  exact inv'

end Inv

/-- After any sequence of callbacks the queue is well linked, the descriptors of its
elements are those accepted and not yet closed, latest first and without repetition, the
next callback returns, and `client_free` would empty the queue. -/
theorem head_of_reachable {s : Server} (reach : callbacks.Reachable s) :
    (∃ pcs, s.head.Linked pcs ∧ pcs.map s.fd = s.opened.map (·.fd) ∧ (pcs.map s.fd).Nodup) ∧
      (∃ t, s.clientFree = some t ∧ t.head.Linked []) ∧
      ∀ callback : Callback, callback.Possible s → ∃ t, callback.run s = some t := by
  have inv := Inv.of_reachable reach
  refine ⟨⟨s.opened.map (·.client), inv.linked, inv.map_fd, ?_⟩, ?_, ?_⟩
  · rw [inv.map_fd]
    exact inv.distinct
  · obtain ⟨head, result, empty⟩ := inv.clientFree
    exact ⟨_, result, empty⟩
  · intro callback possible
    obtain ⟨t, run, -⟩ := inv.callback possible
    exact ⟨t, run⟩

/-- A descriptor is used again: the second connection with the number 7 comes first. -/
theorem head_of_reachable_reused :
    ∃ s, callbacks.Reachable s ∧ s.opened.map (·.fd) = [7, 8] ∧
      ∃ pcs, s.head.Linked pcs ∧ pcs.map s.fd = [7, 8] := by
  let s₁ := idle.acceptCb (some 1) 7
  let s₂ := s₁.acceptCb (some 2) 8
  let s₃ := { s₂.close 7 with head := s₂.head.remove 1 }.eventFree ⟨1, 7⟩
  let s₄ := s₃.acceptCb (some 3) 7
  have start : callbacks.Reachable idle := .start started_idle
  have reach₁ : callbacks.Reachable s₁ :=
    start.extend (a := .accept (some 1) 7) ⟨rfl, by simp [Callback.Possible, idle], rfl⟩
  have reach₂ : callbacks.Reachable s₂ :=
    reach₁.extend (a := .accept (some 2) 8)
      ⟨rfl, by simp [Callback.Possible, s₁, idle, Server.acceptCb], rfl⟩
  have reach₃ : callbacks.Reachable s₃ :=
    reach₂.extend (a := .read ⟨1, 7⟩ .error) ⟨rfl, trivial, rfl⟩
  have possible : Callback.Possible s₃ (.accept (some 3) 7) := by
    simp [Callback.Possible, s₃, s₂, s₁, idle, Server.acceptCb, Server.close, Server.eventFree]
  have reach₄ : callbacks.Reachable s₄ := reach₃.extend ⟨rfl, possible, rfl⟩
  obtain ⟨⟨pcs, linked, fds, -⟩, -⟩ := head_of_reachable reach₄
  exact ⟨s₄, reach₄, rfl, pcs, linked, fds⟩

end LinuxProgram.NetworkServer
