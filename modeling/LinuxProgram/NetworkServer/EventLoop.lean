import LinuxProgram.NetworkServer.Clients

/-!
# When a connection ends

The event loop calls `socket_read_cb` for a registered event whenever its descriptor is
readable. A descriptor at the end of the file is readable, and an event stays registered
until it is freed, so a callback that takes no notice of the end of the file is called
for it again and again.

`ClosesDown` is what should happen to a connection on which `read` has returned nothing
or an error: the descriptor is closed, its client leaves the queue, and no callback is
ever dispatched for the connection again. `socket_read_cb` tests `len < 0` and does
nothing of this when `read` returns 0.

## Main results

* `Live.step` — between callbacks every registered event has its descriptor open
* `Gone.step` — a connection without an event never gets one again
* `closesDown_iff` — every ended connection of a run is closed down if and only if no
  `read` of the run has returned 0
-/

namespace LinuxProgram.NetworkServer

open Base

/-- The loop calls `socket_read_cb` only for an event that is registered. -/
def Callback.Dispatched (s : Server) : Callback → Prop
  | accept _ _ => True
  | read ev _ => ev ∈ s.events

/-- The callbacks that `event_base_dispatch` runs. -/
def eventLoop : System Server Callback where
  init := Started
  step s callback t := callbacks.step s callback t ∧ callback.Dispatched s

/-- A connection is closed down: by the state `s` after the callback and by the callbacks
that come later. -/
structure ClosedDown (s : Server) (ev : Event) (later : List Callback) : Prop where
  closed : ev.fd ∉ s.opened.map (·.fd)
  removed : ∃ pcs, s.head.Linked pcs ∧ ev.client ∉ pcs
  silent : ∀ ev' result, .read ev' result ∈ later → ev'.client ≠ ev.client

/-- Wherever `read` has returned 0 or less in a run, the connection is closed down. -/
def ClosesDown (s₀ : Server) (run : List Callback) : Prop :=
  ∀ before ev result later s t u, run = before ++ .read ev result :: later →
    eventLoop.Steps s₀ before s → eventLoop.step s (.read ev result) t →
    eventLoop.Steps t later u → result.len ≤ 0 → ClosedDown t ev later

/-! ### Invariants of the loop -/

/-- Until the process exits, a registered event has its descriptor open. -/
structure Live (s : Server) : Prop where
  inv : Inv s
  registered : s.exited = false → ∀ ev ∈ s.events, ev ∈ s.opened

/-- The connection of a client has no event. -/
structure Gone (client : ℕ) (s : Server) : Prop where
  allocated : client ∈ s.clients
  unregistered : ∀ ev ∈ s.events, ev.client ≠ client

section Steps

variable {s t : Server} {callback : Callback} {ev : Event} {result : ReadResult}

namespace Live

theorem of_started (started : Started s) : Live s := by
  refine ⟨.of_started started, fun _ ev registered => ?_⟩
  rw [started.events] at registered
  cases registered

theorem acceptCb (live : Live s) {calloc : Option ℕ} {sockfd : ℤ} (running : s.exited = false)
    (possible : Callback.Possible s (.accept calloc sockfd)) :
    Live (s.acceptCb calloc sockfd) := by
  refine ⟨live.inv.acceptCb possible, fun _ ev registered => ?_⟩
  cases calloc with
  | none => exact live.registered running ev registered
  | some pc =>
    rw [Server.acceptCb] at registered ⊢
    split_ifs at registered ⊢
    · exact live.registered running ev registered
    · rcases List.mem_cons.mp registered with rfl | before
      · exact List.mem_cons_self
      · exact List.mem_cons_of_mem _ (live.registered running ev before)

/-- Two open connections with one descriptor are the same. -/
theorem eq_of_fd_eq (live : Live s) {ev' : Event} (opened : ev ∈ s.opened)
    (opened' : ev' ∈ s.opened) (same : ev.fd = ev'.fd) : ev = ev' :=
  List.inj_on_of_nodup_map live.inv.distinct opened opened' same

/-- Two open connections with one client are the same. -/
theorem eq_of_client_eq (live : Live s) {ev' : Event} (opened : ev ∈ s.opened)
    (opened' : ev' ∈ s.opened) (same : ev.client = ev'.client) : ev = ev' :=
  List.inj_on_of_nodup_map live.inv.linked.nodup opened opened' same

/-- Every callback of the loop keeps the events and the open descriptors together. -/
theorem step (live : Live s) (step : eventLoop.step s callback t) : Live t := by
  obtain ⟨⟨running, possible, run⟩, dispatched⟩ := step
  obtain ⟨t', run', inv⟩ := live.inv.callback possible
  obtain rfl := Option.some.inj (run.symm.trans run')
  cases callback with
  | accept calloc sockfd =>
    obtain rfl := Option.some.inj run
    exact live.acceptCb running possible
  | read ev result =>
    refine ⟨inv, fun stays ev' registered => ?_⟩
    cases result with
    | error =>
      -- The event of the closed descriptor is the one that is freed.
      obtain ⟨head, rfl⟩ := Server.socketReadCb_error run
      obtain ⟨registered, other⟩ := List.mem_filter.mp registered
      have opened := live.registered running ev' registered
      refine List.mem_filter.mpr ⟨opened, decide_eq_true fun same => ?_⟩
      have opened_ev := live.registered running ev dispatched
      exact of_decide_eq_true other (live.eq_of_fd_eq opened opened_ev same)
    | data bytes fits =>
      rcases Server.socketReadCb_data fits run with ⟨head, rfl⟩ | rfl
      · cases stays
      · exact live.registered running ev' registered

end Live

/-- A connection that has no event does not get one: events are made for new clients. -/
theorem Gone.step {client : ℕ} (gone : Gone client s) (step : eventLoop.step s callback t) :
    Gone client t := by
  obtain ⟨⟨-, possible, run⟩, -⟩ := step
  cases callback with
  | accept calloc sockfd =>
    obtain rfl := Option.some.inj run
    cases calloc with
    | none => exact gone
    | some pc =>
      rw [Server.acceptCb]
      split_ifs
      · exact gone
      · refine ⟨List.mem_cons_of_mem _ gone.allocated, fun ev registered => ?_⟩
        rcases List.mem_cons.mp registered with rfl | before
        · exact (ne_of_mem_of_not_mem gone.allocated (possible.1 pc rfl)).symm
        · exact gone.unregistered ev before
  | read ev result =>
    cases result with
    | error =>
      obtain ⟨head, rfl⟩ := Server.socketReadCb_error run
      exact ⟨gone.allocated, fun ev' registered =>
        gone.unregistered ev' (List.mem_of_mem_filter registered)⟩
    | data bytes fits =>
      rcases Server.socketReadCb_data fits run with ⟨head, rfl⟩ | rfl
      · exact ⟨gone.allocated, gone.unregistered⟩
      · exact gone

/-- No callback is dispatched for a connection without an event. -/
theorem Gone.silent {client : ℕ} {later : List Callback} (gone : Gone client s)
    (steps : eventLoop.Steps s later t) (taken : .read ev result ∈ later) :
    ev.client ≠ client := by
  obtain ⟨s', t', gone', step⟩ :=
    steps.invariant_at (fun _ _ _ step gone => Gone.step gone step) gone taken
  exact gone'.unregistered ev step.2

/-! ### The two outcomes -/

/-- After an error the connection is closed down. -/
theorem Live.closedDown {later : List Callback} {u : Server} (live : Live s)
    (step : eventLoop.step s (.read ev .error) t) (steps : eventLoop.Steps t later u) :
    ClosedDown t ev later := by
  have inv := (live.step step).inv
  obtain ⟨⟨running, -, run⟩, dispatched⟩ := step
  have opened := live.registered running ev dispatched
  obtain ⟨head, rfl⟩ := Server.socketReadCb_error run
  constructor
  · intro open_again
    obtain ⟨ev', member, same⟩ := List.mem_map.mp open_again
    exact of_decide_eq_true (List.mem_filter.mp member).2 same
  · refine ⟨_, inv.linked, fun queued => ?_⟩
    obtain ⟨ev', member, same⟩ := List.mem_map.mp queued
    obtain ⟨opened', other⟩ := List.mem_filter.mp member
    exact of_decide_eq_true other (congrArg Event.fd (live.eq_of_client_eq opened' opened same))
  · -- The freed event was the only one of this connection.
    have gone : Gone ev.client ({ s.close ev.fd with head }.eventFree ev) := by
      refine ⟨live.inv.allocated ev opened, fun ev' registered same => ?_⟩
      obtain ⟨registered', other⟩ := List.mem_filter.mp registered
      have opened' := live.registered running ev' registered'
      exact of_decide_eq_true other (live.eq_of_client_eq opened' opened same)
    intro ev' result taken
    exact gone.silent steps taken

/-- At the end of the file `socket_read_cb` does nothing. -/
theorem eventLoop_eof (step : eventLoop.step s (.read ev result) t) (eof : result.len = 0) :
    t = s := by
  obtain ⟨⟨-, -, run⟩, -⟩ := step
  cases result with
  | error => cases eof
  | data bytes fits =>
    obtain rfl : bytes = [] := List.eq_nil_of_length_eq_zero (Int.ofNat.inj eof)
    exact (Option.some.inj run).symm

end Steps

section Runs

variable {s₀ s : Server} {run : List Callback}

theorem Live.of_steps (started : Started s₀) (steps : eventLoop.Steps s₀ run s) : Live s :=
  steps.invariant (fun _ _ _ step live => Live.step live step) (.of_started started)

/-- A `read` that returns 0 leaves its connection open. -/
theorem not_closesDown_of_eof (started : Started s₀) (steps : eventLoop.Steps s₀ run s)
    {ev : Event} {result : ReadResult} (taken : .read ev result ∈ run) (eof : result.len = 0) :
    ¬ ClosesDown s₀ run := by
  intro closes
  obtain ⟨before, later, rfl⟩ := List.append_of_mem taken
  obtain ⟨t, t', first, step, rest⟩ := steps.split_at
  have down := closes before ev result later t t' s rfl first step rest eof.le
  have live := Live.of_steps started first
  obtain rfl := eventLoop_eof step eof
  have opened := live.registered step.1.1 ev step.2
  exact down.closed (List.mem_map_of_mem opened)

/-- In a run of the event loop every connection on which `read` has returned 0 or less
is closed down, if and only if no `read` of the run has returned 0. -/
theorem closesDown_iff (started : Started s₀) (steps : eventLoop.Steps s₀ run s) :
    ClosesDown s₀ run ↔ ∀ ev result, .read ev result ∈ run → result.len ≠ 0 := by
  constructor
  · intro closes ev result taken eof
    exact not_closesDown_of_eof started steps taken eof closes
  · rintro positive before ev result later s t u rfl first step rest ended
    have live := Live.of_steps started first
    have nonzero := positive ev result (by simp)
    cases result with
    | error => exact live.closedDown step rest
    | data bytes fits => exact absurd (le_antisymm ended (Int.natCast_nonneg _)) nonzero

end Runs

/-- The first connection of an idle server. -/
theorem steps_accept : eventLoop.Steps idle [.accept (some 1) 7] (idle.acceptCb (some 1) 7) :=
  .tail .refl ⟨⟨rfl, by simp [Callback.Possible, idle], rfl⟩, trivial⟩

/-- `read` fails on the only connection, which is closed down. -/
theorem closesDown_iff_error :
    ∃ t, eventLoop.Steps idle [.accept (some 1) 7, .read ⟨1, 7⟩ .error] t ∧
      ClosesDown idle [.accept (some 1) 7, .read ⟨1, 7⟩ .error] := by
  let s := idle.acceptCb (some 1) 7
  let t := { s.close 7 with head := s.head.remove 1 }.eventFree ⟨1, 7⟩
  have steps : eventLoop.Steps idle [.accept (some 1) 7, .read ⟨1, 7⟩ .error] t :=
    .tail steps_accept ⟨⟨rfl, trivial, rfl⟩, List.mem_cons_self⟩
  refine ⟨t, steps, (closesDown_iff started_idle steps).mpr ?_⟩
  intro ev result taken
  simp only [List.mem_cons, List.not_mem_nil, or_false, reduceCtorEq, false_or] at taken
  obtain ⟨-, rfl⟩ := Callback.read.inj taken
  decide

/-- `read` returns 0 at the end of the file. -/
def eof : ReadResult := .data [] (by decide)

/-- The peer of the only connection closes it. The callback runs for it twice, and the
descriptor is still open and the client still in the queue. -/
theorem eof_not_closesDown :
    ∃ s, eventLoop.Steps idle [.accept (some 1) 7, .read ⟨1, 7⟩ eof, .read ⟨1, 7⟩ eof] s ∧
      s.opened.map (·.fd) = [7] ∧ s.head.Linked [1] ∧
      ¬ ClosesDown idle [.accept (some 1) 7, .read ⟨1, 7⟩ eof, .read ⟨1, 7⟩ eof] := by
  let s := idle.acceptCb (some 1) 7
  have again : eventLoop.step s (.read ⟨1, 7⟩ eof) s := ⟨⟨rfl, trivial, rfl⟩, List.mem_cons_self⟩
  have steps : eventLoop.Steps idle [.accept (some 1) 7, .read ⟨1, 7⟩ eof, .read ⟨1, 7⟩ eof] s :=
    .tail (.tail steps_accept again) again
  have queued : s.head.Linked [1] := (Live.of_steps started_idle steps).inv.linked
  refine ⟨s, steps, rfl, queued, ?_⟩
  exact not_closesDown_of_eof started_idle steps (List.mem_cons_of_mem _ List.mem_cons_self) rfl

end LinuxProgram.NetworkServer
