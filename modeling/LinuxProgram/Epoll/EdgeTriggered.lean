import LinuxProgram.Base.Systems
import Mathlib.Data.Fintype.EquivFin

/-!
# An edge-triggered epoll server

The event loop of `epoll.cpp`, together with the kernel objects it works on: the backlog
of the listening socket, the receive queues of the connections, and the edges that epoll
keeps for the registered descriptors. Everything is registered with `EPOLLIN | EPOLLET`,
so a descriptor is reported once for all that arrived since its last report. On each
report the loop calls `accept` once, or `read` once with room for five bytes.

Both calls block, since the calls of `setnonblocking` are commented out. The branch of the
loop for `EPOLLOUT` is never taken, because the `epoll_ctl` call that would ask for this
event is commented out too.

A source that is not drained when its report is handled, and has no newer edge, is
stranded: nothing but another arrival on it will have it reported again.

## Main definitions

* `Server` — the kernel objects and the reports that are still to be handled
* `Server.handle` — the loop body for one report
* `epollServer` — the steps of the network, of `epoll_wait` and of the loop body
* `Drained` — nothing waits when the loop is about to wait with no edge pending
* `Server.Suffices` — the one call that the next report gets is enough for its source

## Main results

* `Stranded.step` — a stranded source stays stranded until something arrives on it
* `drained_of_suffices` — where every report is handled with one sufficient call, the
  server is drained whenever it is at rest
-/

namespace LinuxProgram.Epoll

open Base

/-- `MAXLINE`, the room that `read` is given. -/
def maxline : ℕ := 5

/-- The number of reports that one `epoll_wait` can return. -/
def maxEvents : ℕ := 20

/-- `ECONNRESET`. -/
def econnreset : ℕ := 104

/-- A connection, as the kernel has it: the number of bytes in the receive queue, whether
the peer has shut it down, and the error that the next `read` without bytes returns. -/
structure Conn where
  unread : ℕ
  eof : Bool
  error : Option ℕ

/-- A connection on which nothing has happened yet. -/
def Conn.new : Conn := { unread := 0, eof := false, error := none }

/-- The connection is readable: `read` would not block. -/
def Conn.ready (c : Conn) : Bool := decide (0 < c.unread) || c.eof || c.error.isSome

/-- What `read` returns: a number of bytes, zero at the end of the file, or an error. -/
inductive ReadResult
  | bytes (n : ℕ)
  | error (errno : ℕ)

/-- `read(sockfd, line, MAXLINE)` on a blocking socket: the result and the connection it
leaves, or `none` while it blocks. Queued bytes come before an error, an error before the
end of the file. -/
def Conn.read (c : Conn) : Option (ReadResult × Conn) :=
  if 0 < c.unread then
    some (.bytes (min maxline c.unread), { c with unread := c.unread - min maxline c.unread })
  else
    match c.error with
    | some errno => some (.error errno, { c with error := none })
    | none => if c.eof then some (.bytes 0, c) else none

/-- What can be registered with epoll: the listening socket, or a connection. -/
inductive Source
  | listener
  | conn (i : ℕ)
  deriving DecidableEq

/-- The server: the connections that wait for `accept`, oldest first, those that were
accepted and not closed, all connections, the edges that epoll has not reported yet, the
reports of the last `epoll_wait` that the loop has still to handle, and whether the
process has exited. -/
structure Server where
  backlog : List ℕ
  opened : List ℕ
  conn : ℕ → Conn
  edge : Source → Bool
  events : List Source
  exited : Bool

namespace Server

/-- The source is readable. -/
def ready (s : Server) : Source → Bool
  | .listener => !s.backlog.isEmpty
  | .conn i => (s.conn i).ready

/-- The network changes the state of a connection. An accepted connection is registered, so
that its edge is raised. -/
def update (s : Server) (i : ℕ) (c : Conn) : Server :=
  { s with
    conn := Function.update s.conn i c
    edge := if i ∈ s.opened then Function.update s.edge (.conn i) true else s.edge }

/-- A connection is established and waits for `accept`. -/
def connect (s : Server) (i : ℕ) : Server :=
  { s with
    backlog := s.backlog ++ [i]
    conn := Function.update s.conn i .new
    edge := Function.update s.edge .listener true }

/-- `epoll_wait` returns `reported` and forgets the edges of `dropped`. -/
def wait (s : Server) (reported dropped : List Source) : Server :=
  { s with
    edge := fun x => s.edge x && decide (x ∉ reported ++ dropped)
    events := reported }

/-- `accept`, then `epoll_ctl(epfd, EPOLL_CTL_ADD, connfd, &ev)`, which finds out whether
the new connection is readable already. `none` while `accept` blocks. -/
def accept (s : Server) : Option Server :=
  match s.backlog with
  | [] => none
  | i :: backlog => some
    { s with
      backlog
      opened := i :: s.opened
      edge := Function.update s.edge (.conn i) (s.conn i).ready }

/-- `close(sockfd)`, which also ends the registration. -/
def close (s : Server) (i : ℕ) : Server :=
  { s with
    opened := s.opened.filter (· ≠ i)
    edge := Function.update s.edge (.conn i) false }

/-- The branch of the loop for `EPOLLIN` on a connection: one `read`. `none` while it
blocks.

The branch goes on to `line[n] = '/0'`, which is left out: the model has no buffer. With five bytes
in `n` the store is behind the end of `line`, and after a failed `read` it is in front of it. -/
def readOnce (s : Server) (i : ℕ) : Option Server :=
  match (s.conn i).read with
  | none => none
  | some (result, c) =>
    let s' := { s with conn := Function.update s.conn i c }
    match result with
    | .error errno => some (if errno = econnreset then s'.close i else s')
    | .bytes n => some (if n = 0 then s'.close i else s')

/-- The loop body for the next report. -/
def handle (s : Server) : Option Server :=
  match s.events with
  | [] => none
  | .listener :: rest => { s with events := rest }.accept
  | .conn i :: rest => { s with events := rest }.readOnce i

end Server

/-- What can happen next. -/
inductive Label
  /-- A connection is established. -/
  | connect (i : ℕ)
  /-- `n` bytes arrive on a connection. -/
  | arrive (i n : ℕ)
  /-- The peer shuts a connection down. -/
  | shutdown (i : ℕ)
  /-- A connection fails. -/
  | fail (i errno : ℕ)
  /-- `epoll_wait` returns. -/
  | wait (reported dropped : List Source)
  /-- The loop handles the next report. -/
  | handle
  /-- The next report is one of the listening socket, and `accept` fails. -/
  | acceptFails

/-- One step. Bytes only arrive on a connection that both sides still have. `epoll_wait` is
called when all reports are handled, and returns at most twenty sources that have an edge.
An edge of a source that is not readable any more may be forgotten without a report. -/
inductive Step (s : Server) : Label → Server → Prop
  | connect {i : ℕ} (fresh : i ∉ s.backlog ++ s.opened) : Step s (.connect i) (s.connect i)
  | arrive {i n : ℕ} (known : i ∈ s.backlog ++ s.opened) (sending : (s.conn i).eof = false)
      (some : 0 < n) :
      Step s (.arrive i n) (s.update i { s.conn i with unread := (s.conn i).unread + n })
  | shutdown {i : ℕ} (known : i ∈ s.backlog ++ s.opened) :
      Step s (.shutdown i) (s.update i { s.conn i with eof := true })
  | fail {i errno : ℕ} (known : i ∈ s.backlog ++ s.opened) :
      Step s (.fail i errno) (s.update i { s.conn i with error := some errno })
  | wait {reported dropped : List Source} (running : s.exited = false) (idle : s.events = [])
      (room : reported.length ≤ maxEvents) (distinct : reported.Nodup)
      (edges : ∀ x ∈ reported, s.edge x = true) (stale : ∀ x ∈ dropped, s.ready x = false) :
      Step s (.wait reported dropped) (s.wait reported dropped)
  | handle {t : Server} (running : s.exited = false) (handled : s.handle = some t) :
      Step s .handle t
  | acceptFails {rest : List Source} (running : s.exited = false)
      (next : s.events = .listener :: rest) :
      Step s .acceptFails { s with exited := true }

/-- The server when it has registered the listening socket. -/
structure Started (s : Server) : Prop where
  backlog : s.backlog = []
  opened : s.opened = []
  edge : ∀ x, s.edge x = false
  events : s.events = []
  running : s.exited = false

/-- The server and its surroundings. -/
def epollServer : System Server Label where
  init := Started
  step := Step

/-! ### At rest -/

/-- The loop is about to call `epoll_wait`, and every edge was reported and handled. -/
structure AtRest (s : Server) : Prop where
  running : s.exited = false
  idle : s.events = []
  quiet : ∀ x, s.edge x = false

/-- Nothing waits in the backlog or in the receive queue of an open connection when the
server is at rest. -/
def Drained (s : Server) : Prop :=
  AtRest s → s.backlog = [] ∧ ∀ i ∈ s.opened, (s.conn i).unread = 0

/-- What a source has to offer: connections to accept, or bytes to read. -/
def Server.level (s : Server) : Source → ℕ
  | .listener => s.backlog.length
  | .conn i => (s.conn i).unread

/-- How much of it one call takes. -/
def Source.served : Source → ℕ
  | .listener => 1
  | .conn _ => maxline

/-- One call is enough for the source of the next report, unless a newer edge will have it
reported again. -/
def Server.Suffices (s : Server) : Label → Prop
  | .handle => ∀ x rest, s.events = x :: rest → s.edge x = false → s.level x ≤ x.served
  | _ => True

/-! ### Stranded sources -/

/-- The source is registered with epoll. -/
def Server.Registered (s : Server) : Source → Prop
  | .listener => True
  | .conn i => i ∈ s.opened

/-- A source has something to offer, and no report of it is outstanding. -/
structure Stranded (s : Server) (x : Source) : Prop where
  registered : s.Registered x
  waiting : 0 < s.level x
  quiet : s.edge x = false
  unreported : x ∉ s.events

/-- The label lets something arrive on the source. -/
def Label.ArrivesOn : Label → Source → Prop
  | .connect _, x => x = .listener
  | .arrive i _, x => x = .conn i
  | .shutdown i, x => x = .conn i
  | .fail i _, x => x = .conn i
  | _, _ => False

section Handle

variable {s t : Server} {x : Source} {a : Label}

/-- One `read` takes five bytes, or all there are, and says so. -/
theorem Conn.read_some {c c' : Conn} {result : ReadResult} (read : c.read = some (result, c')) :
    c'.unread = c.unread - maxline ∧ (0 < c.unread → result = .bytes (min maxline c.unread)) := by
  unfold Conn.read at read
  split_ifs at read with bytes eof
  · obtain ⟨rfl, rfl⟩ := Prod.mk.inj (Option.some.inj read)
    refine ⟨?_, fun _ => rfl⟩
    dsimp only
    omega
  · cases error : c.error with
    | none => rw [error] at read; cases read; omega
    | some errno => rw [error] at read; cases read; dsimp only; omega
  · cases error : c.error with
    | none => rw [error] at read; cases read
    | some errno => rw [error] at read; cases read; dsimp only; omega

/-- What the loop body does with the next report: it accepts one connection, or reads once
from a connection and maybe closes it. -/
theorem Server.handle_some (handled : s.handle = some t) :
    (∃ i backlog rest, s.events = .listener :: rest ∧ s.backlog = i :: backlog ∧
      t = { s with
        events := rest
        backlog := backlog
        opened := i :: s.opened
        edge := Function.update s.edge (.conn i) (s.conn i).ready }) ∨
    ∃ i c rest, s.events = .conn i :: rest ∧ c.unread = (s.conn i).unread - maxline ∧
      (t = { s with events := rest, conn := Function.update s.conn i c } ∨
        (s.conn i).unread = 0 ∧
          t = { s with events := rest, conn := Function.update s.conn i c }.close i) := by
  unfold Server.handle at handled
  match next : s.events with
  | [] => simp [next] at handled
  | .listener :: rest =>
    simp only [next, Server.accept] at handled
    cases waiting : s.backlog with
    | nil => simp [waiting] at handled
    | cons i backlog =>
      simp only [waiting] at handled
      exact .inl ⟨i, backlog, rest, rfl, rfl, (Option.some.inj handled).symm⟩
  | .conn i :: rest =>
    simp only [next, Server.readOnce] at handled
    rcases read : (s.conn i).read with _ | ⟨result, c⟩
    · simp [read] at handled
    · simp only [read] at handled
      obtain ⟨left, bytes⟩ := Conn.read_some read
      refine .inr ⟨i, c, rest, rfl, left, ?_⟩
      cases result with
      | bytes n =>
        obtain rfl := Option.some.inj handled
        split_ifs with eof
        · -- Zero is returned only when nothing was queued.
          refine .inr ⟨?_, rfl⟩
          by_contra queued
          obtain rfl := ReadResult.bytes.inj (bytes (Nat.pos_of_ne_zero queued))
          simp [maxline, queued] at eof
        · exact .inl rfl
      | error errno =>
        obtain rfl := Option.some.inj handled
        split_ifs
        · refine .inr ⟨?_, rfl⟩
          by_contra queued
          cases bytes (Nat.pos_of_ne_zero queued)
        · exact .inl rfl

theorem Server.level_of_not_ready (idle : s.ready x = false) : s.level x = 0 := by
  cases x with
  | listener => simpa [Server.ready, Server.level] using idle
  | conn i =>
    simp only [Server.ready, Conn.ready, Bool.or_eq_false_iff, decide_eq_false_iff_not] at idle
    simp only [Server.level]
    omega

/-- What the network does to a connection strands nothing: an open connection gets an edge. -/
theorem Stranded.of_update {i : ℕ} {c : Conn} (stranded : Stranded (s.update i c) x) :
    Stranded s x := by
  obtain ⟨registered, waiting, quiet, unreported⟩ := stranded
  cases x with
  | listener =>
    refine ⟨trivial, waiting, ?_, unreported⟩
    simp only [Server.update] at quiet
    split_ifs at quiet <;> simpa using quiet
  | conn j =>
    by_cases same : j = i
    · subst same
      have opened : j ∈ s.opened := registered
      simp [Server.update, opened] at quiet
    · refine ⟨registered, ?_, ?_, unreported⟩
      · simpa [Server.update, Server.level, Function.update_of_ne same] using waiting
      · simp only [Server.update] at quiet
        split_ifs at quiet
        · simpa [same] using quiet
        · exact quiet

/-- Only the report in hand can strand its source. -/
theorem stranded_of_handle (handled : s.handle = some t) (stranded : Stranded t x) :
    Stranded s x ∨ ∃ rest, s.events = x :: rest ∧ s.edge x = false ∧ x.served < s.level x := by
  obtain ⟨registered, waiting, quiet, unreported⟩ := stranded
  rcases Server.handle_some handled with
    ⟨i, backlog, rest, next, queue, rfl⟩ | ⟨i, c, rest, next, left, t_eq⟩
  · cases x with
    | listener =>
      refine .inr ⟨rest, next, by simpa using quiet, ?_⟩
      simp only [Server.level] at waiting
      simp only [Server.level, Source.served, queue, List.length_cons]
      omega
    | conn j =>
      -- The accepted connection gets an edge if it has bytes.
      by_cases same : j = i
      · subst same
        simp only [Function.update_self] at quiet
        exact absurd (Server.level_of_not_ready (s := s) (x := .conn j) quiet)
          (Nat.ne_of_gt waiting)
      · refine .inl ⟨(List.mem_cons.mp registered).resolve_left same, waiting, ?_, ?_⟩
        · simpa [same] using quiet
        · simpa [next] using unreported
  · cases x with
    | listener =>
      refine .inl ⟨trivial, ?_, ?_, ?_⟩
      · rcases t_eq with rfl | ⟨-, rfl⟩ <;> exact waiting
      · rcases t_eq with rfl | ⟨-, rfl⟩ <;> simpa [Server.close] using quiet
      · rcases t_eq with rfl | ⟨-, rfl⟩ <;> simpa [Server.close, next] using unreported
    | conn j =>
      by_cases same : j = i
      · subst same
        rcases t_eq with rfl | ⟨-, rfl⟩
        · refine .inr ⟨rest, next, quiet, ?_⟩
          simp only [Server.level, Function.update_self, left] at waiting
          simp only [Server.level, Source.served]
          omega
        · -- A connection that was closed is not registered.
          exact absurd rfl (of_decide_eq_true (List.mem_filter.mp registered).2)
      · refine .inl ⟨?_, ?_, ?_, ?_⟩
        · rcases t_eq with rfl | ⟨-, rfl⟩
          · exact registered
          · exact (List.mem_filter.mp registered).1
        · rcases t_eq with rfl | ⟨-, rfl⟩ <;>
            simpa [Server.level, Server.close, Function.update_of_ne same] using waiting
        · rcases t_eq with rfl | ⟨-, rfl⟩
          · exact quiet
          · simpa [Server.close, same] using quiet
        · rcases t_eq with rfl | ⟨-, rfl⟩ <;> simpa [Server.close, next, same] using unreported

/-- A source is stranded by no other step than the handling of its own report, with more to
offer than the one call takes. -/
theorem stranded_of_step (step : Step s a t) (stranded : Stranded t x) :
    Stranded s x ∨
      a = .handle ∧ ∃ rest, s.events = x :: rest ∧ s.edge x = false ∧ x.served < s.level x := by
  cases step with
  | @connect i _ =>
    left
    obtain ⟨registered, waiting, quiet, unreported⟩ := stranded
    cases x with
    | listener => simp [Server.connect] at quiet
    | conn j =>
      refine ⟨registered, ?_, by simpa [Server.connect] using quiet, unreported⟩
      by_cases new : j = i
      · simp [Server.connect, Server.level, new, Conn.new] at waiting
      · simpa [Server.connect, Server.level, Function.update_of_ne new] using waiting
  | arrive => exact .inl stranded.of_update
  | shutdown => exact .inl stranded.of_update
  | fail => exact .inl stranded.of_update
  | @wait reported dropped _ idle _ _ _ stale =>
    left
    obtain ⟨registered, waiting, quiet, unreported⟩ := stranded
    refine ⟨registered, waiting, ?_, by simp [idle]⟩
    -- An edge that is gone without a report was forgotten, and its source is not readable.
    by_contra edge
    simp only [Bool.not_eq_false] at edge
    have forgotten : x ∉ reported → x ∈ dropped := by simpa [Server.wait, edge] using quiet
    exact absurd (Server.level_of_not_ready (stale x (forgotten unreported)))
      (Nat.ne_of_gt waiting)
  | handle _ handled =>
    rcases stranded_of_handle handled stranded with before | now
    · exact .inl before
    · exact .inr ⟨rfl, now⟩
  | acceptFails => exact .inl ⟨stranded.registered, stranded.waiting, stranded.quiet,
      stranded.unreported⟩

end Handle

/-! ### Draining -/

/-- No source is stranded. -/
def NoneStranded (s : Server) : Prop := ∀ x, ¬ Stranded s x

/-- A server without stranded sources is drained. -/
theorem NoneStranded.drained {s : Server} (none : NoneStranded s) : Drained s := by
  rintro ⟨-, idle, quiet⟩
  have empty (x : Source) (registered : s.Registered x) : s.level x = 0 := by
    by_contra waiting
    exact none x ⟨registered, Nat.pos_of_ne_zero waiting, quiet x, by simp [idle]⟩
  exact ⟨List.length_eq_zero_iff.mp (empty .listener trivial),
    fun i opened => empty (.conn i) opened⟩

theorem noneStranded_of_started {s : Server} (started : Started s) : NoneStranded s := by
  intro x stranded
  cases x with
  | listener => simpa [Server.level, started.backlog] using stranded.waiting
  | conn i =>
    have opened : i ∈ s.opened := stranded.registered
    simp [started.opened] at opened

/-- A step whose one call is enough strands nothing. -/
theorem NoneStranded.step {s t : Server} {a : Label} (none : NoneStranded s)
    (step : (epollServer.restrict Server.Suffices).step s a t) : NoneStranded t := by
  obtain ⟨step, enough⟩ := step
  intro x stranded
  rcases stranded_of_step step stranded with before | ⟨rfl, rest, next, quiet, more⟩
  · exact none x before
  · exact Nat.not_le.mpr more (enough x rest next quiet)

/-- In every run in which one call is always enough, the server is drained whenever it is at
rest. -/
theorem drained_of_suffices {s : Server}
    (reach : (epollServer.restrict Server.Suffices).Reachable s) : Drained s :=
  NoneStranded.drained (System.Reachable.invariant (fun _ => noneStranded_of_started)
    (fun _ _ _ step none => none.step step) reach)

/-! ### A stranded source stays behind -/

/-- Connections are distinct, and every edge and every report is that of a registered
source. -/
structure Inv (s : Server) : Prop where
  distinct : (s.backlog ++ s.opened).Nodup
  edges : ∀ x, s.edge x = true → s.Registered x
  reports : ∀ x ∈ s.events, s.Registered x
  once : s.events.Nodup

section Inv

variable {s t : Server} {x : Source} {a : Label}

theorem Inv.of_started (started : Started s) : Inv s := by
  refine ⟨?_, fun x edge => ?_, fun x reported => ?_, ?_⟩
  · simp [started.backlog, started.opened]
  · simp [started.edge x] at edge
  · simp [started.events] at reported
  · simp [started.events]

theorem Inv.update (inv : Inv s) (i : ℕ) (c : Conn) : Inv (s.update i c) := by
  refine ⟨inv.distinct, fun x edge => ?_, inv.reports, inv.once⟩
  simp only [Server.update] at edge
  split_ifs at edge with opened
  · by_cases same : x = .conn i
    · subst same
      exact opened
    · rw [Function.update_of_ne same] at edge
      exact inv.edges x edge
  · exact inv.edges x edge

/-- The loop body keeps the invariant. -/
theorem Inv.handle (inv : Inv s) (handled : s.handle = some t) : Inv t := by
  obtain ⟨distinct, edges, reports, once⟩ := inv
  rcases Server.handle_some handled with
    ⟨i, backlog, rest, next, queue, rfl⟩ | ⟨i, c, rest, next, -, rfl | ⟨-, rfl⟩⟩
  · rw [queue] at distinct
    rw [next] at once reports
    have grown (x : Source) (registered : s.Registered x) :
        Server.Registered { s with opened := i :: s.opened } x := by
      cases x with
      | listener => trivial
      | conn j => exact List.mem_cons_of_mem i registered
    refine ⟨?_, fun x edge => ?_, fun x reported => ?_, once.of_cons⟩
    · have moved : (backlog ++ i :: s.opened).Perm (i :: (backlog ++ s.opened)) :=
        List.perm_middle
      exact moved.nodup_iff.mpr distinct
    · by_cases same : x = .conn i
      · subst same
        exact List.mem_cons_self
      · exact grown x (edges x (by simpa [same] using edge))
    · exact grown x (reports x (List.mem_cons_of_mem _ reported))
  · rw [next] at once reports
    exact ⟨distinct, edges, fun x reported => reports x (List.mem_cons_of_mem _ reported),
      once.of_cons⟩
  · rw [next] at once reports
    -- The closed connection has neither an edge nor another report.
    have kept {x : Source} (other : x ≠ .conn i) (registered : s.Registered x) :
        Server.Registered { s with opened := s.opened.filter (· ≠ i) } x := by
      cases x with
      | listener => trivial
      | conn j => exact List.mem_filter.mpr ⟨registered, by simpa using other⟩
    refine ⟨?_, fun x edge => ?_, fun x reported => ?_, once.of_cons⟩
    · exact distinct.sublist ((List.Sublist.refl _).append List.filter_sublist)
    · by_cases same : x = .conn i
      · simp [same, Server.close] at edge
      · exact kept same (edges x (by simpa [Server.close, same] using edge))
    · have other : x ≠ .conn i := by
        rintro rfl
        exact (List.nodup_cons.mp once).1 reported
      exact kept other (reports x (List.mem_cons_of_mem _ reported))

theorem Inv.step (inv : Inv s) (step : Step s a t) : Inv t := by
  cases step with
  | @connect i fresh =>
    refine ⟨?_, fun x edge => ?_, inv.reports, inv.once⟩
    · have moved : (s.backlog ++ [i] ++ s.opened).Perm (i :: (s.backlog ++ s.opened)) := by
        rw [List.append_assoc]
        exact List.perm_middle
      exact moved.nodup_iff.mpr (List.nodup_cons.mpr ⟨fresh, inv.distinct⟩)
    · cases x with
      | listener => trivial
      | conn j => exact inv.edges (.conn j) (by simpa [Server.connect] using edge)
  | arrive => exact inv.update _ _
  | shutdown => exact inv.update _ _
  | fail => exact inv.update _ _
  | wait _ _ _ distinct edges _ =>
    refine ⟨inv.distinct, fun x edge => ?_, fun x reported => ?_, distinct⟩
    · exact inv.edges x (Bool.and_eq_true_iff.mp edge).1
    · exact inv.edges x (edges x reported)
  | handle _ handled => exact inv.handle handled
  | acceptFails => exact ⟨inv.distinct, inv.edges, inv.reports, inv.once⟩

theorem Stranded.update (stranded : Stranded s x) {i : ℕ} (other : x ≠ .conn i) (c : Conn) :
    Stranded (s.update i c) x := by
  obtain ⟨registered, waiting, quiet, unreported⟩ := stranded
  refine ⟨registered, ?_, ?_, unreported⟩
  · cases x with
    | listener => exact waiting
    | conn j =>
      have apart : j ≠ i := fun same => other (by rw [same])
      simpa [Server.update, Server.level, Function.update_of_ne apart] using waiting
  · simp only [Server.update]
    split_ifs
    · rw [Function.update_of_ne other]
      exact quiet
    · exact quiet

/-- The loop body does not touch a source that is not in hand. -/
theorem Stranded.handle (stranded : Stranded s x) (inv : Inv s) (handled : s.handle = some t) :
    Stranded t x := by
  obtain ⟨registered, waiting, quiet, unreported⟩ := stranded
  rcases Server.handle_some handled with
    ⟨i, backlog, rest, next, queue, rfl⟩ | ⟨i, c, rest, next, -, t_eq⟩
  · rw [next, List.mem_cons, not_or] at unreported
    cases x with
    | listener => exact absurd rfl unreported.1
    | conn j =>
      have apart : j ≠ i := by
        rintro rfl
        have distinct := inv.distinct
        rw [queue, List.cons_append, List.nodup_cons, List.mem_append] at distinct
        exact distinct.1 (.inr registered)
      exact ⟨List.mem_cons_of_mem i registered, waiting, by simpa [apart] using quiet,
        unreported.2⟩
  · rw [next, List.mem_cons, not_or] at unreported
    have kept : Stranded { s with events := rest, conn := Function.update s.conn i c } x := by
      refine ⟨registered, ?_, quiet, unreported.2⟩
      cases x with
      | listener => exact waiting
      | conn j =>
        have apart : j ≠ i := fun same => unreported.1 (by rw [same])
        simpa [Server.level, Function.update_of_ne apart] using waiting
    rcases t_eq with rfl | ⟨-, rfl⟩
    · exact kept
    · refine ⟨?_, kept.waiting, ?_, kept.unreported⟩
      · cases x with
        | listener => trivial
        | conn j =>
          have apart : j ≠ i := fun same => unreported.1 (by rw [same])
          exact List.mem_filter.mpr ⟨registered, by simpa using apart⟩
      · simpa [Server.close, unreported.1] using quiet

/-- A stranded source stays stranded until something arrives on it. -/
theorem Stranded.step (stranded : Stranded s x) (inv : Inv s) (step : Step s a t)
    (silent : ¬ a.ArrivesOn x) : Stranded t x := by
  cases step with
  | @connect i fresh =>
    obtain ⟨registered, waiting, quiet, unreported⟩ := stranded
    cases x with
    | listener => exact absurd rfl silent
    | conn j =>
      have apart : j ≠ i := by
        rintro rfl
        exact fresh (List.mem_append_right _ registered)
      refine ⟨registered, ?_, by simpa [Server.connect] using quiet, unreported⟩
      simpa [Server.connect, Server.level, Function.update_of_ne apart] using waiting
  | arrive => exact stranded.update silent _
  | shutdown => exact stranded.update silent _
  | fail => exact stranded.update silent _
  | wait _ _ _ _ edges _ =>
    refine ⟨stranded.registered, stranded.waiting, by simp [Server.wait, stranded.quiet], ?_⟩
    intro reported
    have edge := edges x reported
    rw [stranded.quiet] at edge
    cases edge
  | handle _ handled => exact stranded.handle inv handled
  | acceptFails => exact ⟨stranded.registered, stranded.waiting, stranded.quiet,
      stranded.unreported⟩

end Inv

/-! ### The way to rest

From any state with a stranded source the loop can come to rest with the source still
stranded. Reports in hand are handled, with an arrival on another source where a call would
block; then the remaining edges of readable sources are reported one at a time, and those
of other sources are forgotten. -/

section Rest

variable {s t : Server} {x y : Source} {rest : List Source}

theorem Conn.read_of_ready {c : Conn} (ready : c.ready = true) :
    ∃ result, c.read = some result := by
  unfold Conn.read
  split_ifs with bytes eof
  · exact ⟨_, rfl⟩
  · cases c.error with
    | none => exact ⟨_, rfl⟩
    | some errno => exact ⟨_, rfl⟩
  · cases error : c.error with
    | none => simp [Conn.ready, bytes, eof, error] at ready
    | some errno => exact ⟨_, rfl⟩

/-- A readable source does not block the loop. -/
theorem Server.handle_of_ready (next : s.events = y :: rest) (ready : s.ready y = true) :
    ∃ t, s.handle = some t ∧ t.events = rest ∧ t.exited = s.exited := by
  have enabled : ∃ t, s.handle = some t := by
    cases y with
    | listener =>
      cases queue : s.backlog with
      | nil => simp [Server.ready, queue] at ready
      | cons i backlog => simp [Server.handle, next, Server.accept, queue]
    | conn i =>
      obtain ⟨⟨result, c⟩, read⟩ := Conn.read_of_ready (c := s.conn i) ready
      cases result <;> simp [Server.handle, next, Server.readOnce, read]
  obtain ⟨t, handled⟩ := enabled
  refine ⟨t, handled, ?_⟩
  rcases Server.handle_some handled with
    ⟨i, backlog, rest', next', -, rfl⟩ | ⟨i, c, rest', next', -, rfl | ⟨-, rfl⟩⟩ <;>
  · rw [next] at next'
    exact ⟨(List.cons.inj next').2.symm, rfl⟩

/-- A source that would block the loop can be made readable by something that arrives on it. -/
theorem exists_arrival (registered : s.Registered y) (blocked : s.ready y = false) :
    ∃ a t, Step s a t ∧ t.ready y = true ∧ t.events = s.events ∧ t.exited = s.exited ∧
      ∀ x, a.ArrivesOn x → x = y := by
  cases y with
  | listener =>
    obtain ⟨i, fresh⟩ := Infinite.exists_notMem_finset (s.backlog ++ s.opened).toFinset
    refine ⟨.connect i, s.connect i, .connect (by simpa using fresh), ?_, rfl, rfl, fun _ on => on⟩
    simp [Server.ready, Server.connect]
  | conn i =>
    simp only [Server.ready, Conn.ready, Bool.or_eq_false_iff] at blocked
    refine ⟨.arrive i 1, _, .arrive (List.mem_append_right _ registered) blocked.1.2 Nat.one_pos,
      ?_, rfl, rfl, fun _ on => on⟩
    simp [Server.ready, Server.update, Conn.ready]

/-- A running server with the stranded source `x`. -/
structure Behind (x : Source) (s : Server) : Prop where
  inv : Inv s
  running : s.exited = false
  stranded : Stranded s x

/-- The next report can be handled. -/
theorem Behind.handle_next (behind : Behind x s) (next : s.events = y :: rest) :
    ∃ run t, epollServer.Steps s run t ∧ Behind x t ∧ t.events = rest := by
  obtain ⟨inv, running, stranded⟩ := behind
  have other : x ≠ y := by
    rintro rfl
    exact stranded.unreported (by simp [next])
  cases ready : s.ready y with
  | true =>
    obtain ⟨t, handled, events, exited⟩ := Server.handle_of_ready next ready
    exact ⟨_, t, .single (.handle running handled),
      ⟨inv.handle handled, by rw [exited, running], stranded.handle inv handled⟩, events⟩
  | false =>
    obtain ⟨a, s', arrival, ready', events', exited', only⟩ :=
      exists_arrival (inv.reports y (by simp [next])) ready
    have inv' := inv.step arrival
    have stranded' := stranded.step inv arrival fun on => other (only x on)
    obtain ⟨t, handled, events, exited⟩ := Server.handle_of_ready (events'.trans next) ready'
    have running' : s'.exited = false := by rw [exited', running]
    exact ⟨_, t, (System.Steps.single arrival).trans (.single (.handle running' handled)),
      ⟨inv'.handle handled, by rw [exited, running'], stranded'.handle inv' handled⟩, events⟩

/-- All reports in hand can be handled. -/
theorem Behind.handle_all (behind : Behind x s) :
    ∃ run t, epollServer.Steps s run t ∧ Behind x t ∧ t.events = [] := by
  generalize inHand : s.events = events
  induction events generalizing s with
  | nil => exact ⟨[], s, .refl, behind, inHand⟩
  | cons y rest ih =>
    obtain ⟨run, t, steps, behind', events⟩ := behind.handle_next inHand
    obtain ⟨run', u, steps', result⟩ := ih behind' events
    exact ⟨run ++ run', u, steps.trans steps', result⟩

/-- The open connections that are readable and have an edge. -/
def Server.hot (s : Server) : Finset ℕ :=
  s.opened.toFinset.filter fun i => s.edge (.conn i) = true ∧ s.ready (.conn i) = true

/-- How many reports of readable sources are to come. A report of the listening socket may
bring one more connection that is readable already. -/
def Server.weight (s : Server) : ℕ :=
  (if s.edge .listener = true ∧ s.ready .listener = true then 2 else 0) + s.hot.card

theorem Server.mem_hot {i : ℕ} :
    i ∈ s.hot ↔ i ∈ s.opened ∧ s.edge (.conn i) = true ∧ (s.conn i).ready = true := by
  rw [Server.hot, Finset.mem_filter, List.mem_toFinset]
  rfl

/-- Reporting and handling a readable source with an edge lowers the weight. -/
theorem Server.weight_lt (inv : Inv s) (edge : s.edge y = true) (ready : s.ready y = true)
    (handled : (s.wait [y] []).handle = some t) : t.weight < s.weight := by
  rcases Server.handle_some handled with
    ⟨i, backlog, rest, next, queue, t_eq⟩ | ⟨i, c, rest, next, -, t_eq⟩
  · obtain rfl : y = .listener := (List.cons.inj next).1
    -- The listening socket has lost its edge; one connection may have become hot.
    have quiet : t.edge .listener = false := by simp [t_eq, Server.wait]
    have grown : t.hot ⊆ insert i s.hot := by
      intro j hot
      by_cases same : j = i
      · simp [same]
      · rw [Finset.mem_insert, Server.mem_hot]
        rw [Server.mem_hot, t_eq] at hot
        simpa [Server.wait, same] using hot
    have count := (Finset.card_le_card grown).trans (Finset.card_insert_le i s.hot)
    simp only [Server.weight, quiet, edge, ready, Bool.false_eq_true, false_and, and_self,
      if_true, if_false]
    omega
  · obtain rfl : y = .conn i := (List.cons.inj next).1
    -- The connection has lost its edge, and nothing else has changed.
    have listener : t.edge .listener = s.edge .listener ∧
        t.ready .listener = s.ready .listener := by
      rcases t_eq with rfl | ⟨-, rfl⟩ <;> simp [Server.wait, Server.close, Server.ready]
    have before : i ∈ s.hot := Server.mem_hot.mpr ⟨inv.edges _ edge, edge, ready⟩
    have after : i ∉ t.hot := by
      rw [Server.mem_hot]
      rcases t_eq with rfl | ⟨-, rfl⟩ <;> simp [Server.wait, Server.close]
    have shrunk : t.hot ⊆ s.hot := by
      intro j hot
      have other : j ≠ i := fun same => after (same ▸ hot)
      rw [Server.mem_hot] at hot ⊢
      rcases t_eq with rfl | ⟨-, rfl⟩ <;> simpa [Server.wait, Server.close, other] using hot
    have count := Finset.card_lt_card ((Finset.ssubset_iff_of_subset shrunk).mpr ⟨i, before, after⟩)
    simp only [Server.weight, listener]
    omega

/-- With no reports in hand the loop can come to rest. -/
theorem Behind.settle (behind : Behind x s) (idle : s.events = []) :
    ∃ run t, epollServer.Steps s run t ∧ AtRest t ∧ Stranded t x := by
  -- Induction on the number of reports that are still to come.
  generalize bound : s.weight = n
  induction n using Nat.strong_induction_on generalizing s with
  | _ n ih =>
    obtain ⟨inv, running, stranded⟩ := behind
    by_cases hot : ∃ y, s.edge y = true ∧ s.ready y = true
    · obtain ⟨y, edge, ready⟩ := hot
      have reported : Step s (.wait [y] []) (s.wait [y] []) :=
        .wait running idle (by simp [maxEvents]) (List.nodup_singleton y) (by simpa using edge)
          (by simp)
      have inv' := inv.step reported
      have stranded' := stranded.step inv reported id
      have inHand : (s.wait [y] []).events = y :: [] := rfl
      obtain ⟨t, handled, events, exited⟩ :=
        Server.handle_of_ready inHand (by cases y <;> exact ready)
      have running' : t.exited = false := exited.trans running
      have handling : Step (s.wait [y] []) .handle t := .handle running handled
      obtain ⟨run, u, steps, result⟩ := ih t.weight
        (bound ▸ Server.weight_lt inv edge ready handled)
        ⟨inv'.handle handled, running', stranded'.handle inv' handled⟩ events rfl
      have round : epollServer.Steps s _ t := .tail (.single reported) handling
      exact ⟨_, u, round.trans steps, result⟩
    · -- Every edge left is stale, and epoll forgets it.
      let left := (.listener :: s.opened.map .conn : List Source).filter (s.edge ·)
      have stale : ∀ y ∈ left, s.ready y = false := by
        intro y listed
        have edge := (List.mem_filter.mp listed).2
        by_contra ready
        exact hot ⟨y, edge, by simpa using ready⟩
      have forgotten : Step s (.wait [] left) (s.wait [] left) :=
        .wait running idle (Nat.zero_le _) List.nodup_nil (by simp) stale
      refine ⟨_, _, .single forgotten, ⟨running, rfl, fun y => ?_⟩, stranded.step inv forgotten id⟩
      cases edge : s.edge y with
      | false => simp [Server.wait, edge]
      | true =>
        have registered := inv.edges y edge
        have listed : y ∈ (.listener :: s.opened.map .conn : List Source) := by
          cases y with
          | listener => exact List.mem_cons_self
          | conn i => exact List.mem_cons_of_mem _ (List.mem_map_of_mem registered)
        have dropped : y ∈ left := List.mem_filter.mpr ⟨listed, edge⟩
        simp only [Server.wait, List.nil_append, dropped, not_true, decide_false, Bool.and_false]

/-- A report that is handled with a call that is not enough strands its source. -/
theorem stranded_of_insufficient (inv : Inv s) (handled : s.handle = some t)
    (next : s.events = x :: rest) (quiet : s.edge x = false) (more : x.served < s.level x) :
    Stranded t x := by
  have once := inv.once
  rw [next] at once
  have last := (List.nodup_cons.mp once).1
  rcases Server.handle_some handled with
    ⟨i, backlog, rest', next', queue, rfl⟩ | ⟨i, c, rest', next', left, t_eq⟩
  · obtain ⟨rfl, rfl⟩ := List.cons.inj (next.symm.trans next')
    refine ⟨trivial, ?_, by simpa using quiet, last⟩
    simp only [Server.level, queue, Source.served, List.length_cons] at more ⊢
    omega
  · obtain ⟨rfl, rfl⟩ := List.cons.inj (next.symm.trans next')
    simp only [Server.level, Source.served] at more
    rcases t_eq with rfl | ⟨empty, -⟩
    · have registered : s.Registered (.conn i) := inv.reports _ (by simp [next])
      refine ⟨registered, ?_, quiet, last⟩
      simp only [Server.level, Function.update_self, left]
      omega
    · omega

end Rest

/-- The condition is exact. Where every report is handled with one sufficient call, the
server is drained whenever it is at rest; and from any reachable state, handling a report
with a call that is not enough can be followed by steps to a state at rest that is not
drained. -/
theorem drained_exact (s : Server) :
    ((epollServer.restrict Server.Suffices).Reachable s → Drained s) ∧
      ∀ t, epollServer.Reachable s → Step s .handle t → ¬ s.Suffices .handle →
        ∃ run u, epollServer.Steps t run u ∧ ¬ Drained u := by
  refine ⟨fun reach => drained_of_suffices reach, fun t reach step insufficient => ?_⟩
  have inv : Inv s := System.Reachable.invariant (fun _ => Inv.of_started)
    (fun _ _ _ step inv => inv.step step) reach
  have ⟨running, handled⟩ : s.exited = false ∧ s.handle = some t := by
    cases step with
    | handle running handled => exact ⟨running, handled⟩
  simp only [Server.Suffices, not_forall, Nat.not_le] at insufficient
  obtain ⟨x, rest, next, quiet, more⟩ := insufficient
  have stranded := stranded_of_insufficient inv handled next quiet more
  have stays : t.exited = false := by
    rcases Server.handle_some handled with
      ⟨_, _, _, _, _, rfl⟩ | ⟨_, _, _, _, _, rfl | ⟨_, rfl⟩⟩ <;> exact running
  have behind : Behind x t := ⟨inv.step step, stays, stranded⟩
  obtain ⟨run, t', steps, behind', idle⟩ := behind.handle_all
  obtain ⟨run', u, steps', atRest, stranded'⟩ := behind'.settle idle
  refine ⟨run ++ run', u, steps.trans steps', fun drained => ?_⟩
  obtain ⟨empty, unread⟩ := drained atRest
  have waiting := stranded'.waiting
  cases x with
  | listener => simp [Server.level, empty] at waiting
  | conn i => simp [Server.level, unread i stranded'.registered] at waiting

/-- A server on which nothing has happened yet. -/
def fresh : Server :=
  { backlog := [], opened := [], conn := fun _ => .new, edge := fun _ => false, events := []
    exited := false }

theorem started_fresh : Started fresh := ⟨rfl, rfl, fun _ => rfl, rfl, rfl⟩

/-- One connection comes in, is reported and accepted. -/
theorem drained_exact_one_connection :
    ∃ s, (epollServer.restrict Server.Suffices).Reachable s ∧ AtRest s ∧ s.opened = [0] ∧
      Drained s := by
  have comes : Step fresh (.connect 0) (fresh.connect 0) := .connect (by simp [fresh])
  have reported : Step (fresh.connect 0) (.wait [.listener] [])
      ((fresh.connect 0).wait [.listener] []) :=
    .wait rfl rfl (by decide) (by simp) (by simp [Server.connect]) (by simp)
  have accepted : Step ((fresh.connect 0).wait [.listener] []) .handle _ := .handle rfl rfl
  have one : ((fresh.connect 0).wait [.listener] []).Suffices .handle := by
    intro x rest next _
    obtain ⟨rfl, rfl⟩ := List.cons.inj next
    exact Nat.le_refl 1
  have reach₀ : (epollServer.restrict Server.Suffices).Reachable fresh := .start started_fresh
  have reach := ((reach₀.extend ⟨comes, trivial⟩).extend ⟨reported, trivial⟩).extend ⟨accepted, one⟩
  refine ⟨_, reach, ⟨rfl, rfl, fun x => ?_⟩, rfl, (drained_exact _).1 reach⟩
  cases x <;> simp [Server.wait, Server.connect, fresh, Function.update_apply, Conn.new, Conn.ready]

/-- Two connections that come in before the listening socket is reported: one of them is
accepted, and the other is left in the backlog without an edge. -/
theorem two_connections_undrained :
    ∃ s, epollServer.Reachable s ∧ AtRest s ∧ s.backlog = [1] := by
  have first : Step fresh (.connect 0) (fresh.connect 0) := .connect (by simp [fresh])
  have second : Step (fresh.connect 0) (.connect 1) ((fresh.connect 0).connect 1) :=
    .connect (by simp [fresh, Server.connect])
  have reported : Step ((fresh.connect 0).connect 1) (.wait [.listener] [])
      (((fresh.connect 0).connect 1).wait [.listener] []) :=
    .wait rfl rfl (by decide) (by simp) (by simp [Server.connect]) (by simp)
  have accepted : Step (((fresh.connect 0).connect 1).wait [.listener] []) .handle _ :=
    .handle rfl rfl
  have reach₀ : epollServer.Reachable fresh := .start started_fresh
  have reach := (((reach₀.extend first).extend second).extend reported).extend accepted
  refine ⟨_, reach, ⟨rfl, rfl, fun x => ?_⟩, rfl⟩
  cases x <;> simp [Server.wait, Server.connect, fresh, Function.update_apply, Conn.new, Conn.ready]

end LinuxProgram.Epoll
