import LinuxProgram.GetAddr.Filters
import Mathlib.Data.List.DropRight

/-!
# The default route of a dump

`nl_get_oif` is called on one route message after the other with the same `arg`. It is meant
to leave in `*arg` the output interface of the last route that has a gateway and no
destination.

The test for a gateway looks at the pointer `gate`, which is uninitialised if the message has
no gateway, and the interface is uninitialised if the message has none. So a later route
without destination must not bring another interface. A route with a destination is printed,
as two strings, in one of the two programs: there it must have a gateway, and both strings must
end inside the message (`defaultRoute_exact`).

## Main definitions

* `RouteMessage` — a well-formed route message
* `RouteMessage.Selected`, `selected` — the routes that are meant, and what they leave
* `RouteMessage.Shows` — a route that can be printed
* `call` — one call of `nl_get_oif`

## Main results

* `call_eq` — what one call does to `*arg`
* `defaultRoute_exact` — when a sequence of calls leaves what is meant
-/

namespace LinuxProgram.GetAddr

open Base Netlink

/-- A route message: a complete `struct rtmsg`, then attributes up to the end, those for the
output interface with four bytes. Its length is counted by an `int`, as `NLMSG_OK` does. -/
structure RouteMessage where
  mem : Memory
  header : 28 ≤ nlmsgLen mem 0
  counted : nlmsgLen mem 0 < 2 ^ 31
  filled : Filled mem 28 (nlmsgLen mem 0 - 28)
  words : ∀ rta ∈ attributes mem 28 (nlmsgLen mem 0 - 28),
    rtaType mem rta = rtaOif → rtaLen mem rta = 8

namespace RouteMessage

/-- The last attribute of a type. -/
def last (x : RouteMessage) (t : ℕ) : Option ℕ := lastAttr x.mem 28 (nlmsgLen x.mem 0 - 28) t

/-- The output interface. -/
def oif (x : RouteMessage) : Option ℤ := (x.last rtaOif).map fun rta => x.mem.i32 (rta + 4)

/-- A route that passes the tests of its header. -/
def Tested (x : RouteMessage) : Prop := nlmsgType x.mem 0 = rtmNewroute ∧ Passes x.mem

/-- A route that passes the tests of its header and has no destination. -/
def Eligible (x : RouteMessage) : Prop :=
  nlmsgType x.mem 0 = rtmNewroute ∧ Passes x.mem ∧ x.last rtaDst = none

/-- A route that is meant: it also has a gateway and an output interface. -/
def Selected (x : RouteMessage) : Prop :=
  x.Eligible ∧ (x.last rtaGateway).isSome ∧ (x.last rtaOif).isSome

/-- The value of an attribute is the beginning of a string that ends inside the message. -/
def Ends (x : RouteMessage) (rta : ℕ) : Prop :=
  ∃ i, rta + 4 + i < nlmsgLen x.mem 0 ∧ x.mem (rta + 4 + i) = 0

/-- A route with a destination can be printed, whatever `gate` contains: there is a gateway, and
both addresses are strings. -/
def Shows (x : RouteMessage) : Prop :=
  x.Tested → (x.last rtaDst).isSome →
    (∃ rta ∈ x.last rtaGateway, x.Ends rta) ∧ ∀ rta ∈ x.last rtaDst, x.Ends rta

instance (x : RouteMessage) : Decidable x.Eligible := inferInstanceAs (Decidable (_ ∧ _ ∧ _))

instance (x : RouteMessage) : Decidable x.Selected := inferInstanceAs (Decidable (_ ∧ _ ∧ _))

end RouteMessage

/-- What is meant to be left in `*arg`: the interface of the last route that is meant, or the
initial value. -/
def selected (init : ℤ) (messages : List RouteMessage) : ℤ :=
  ((messages.filter fun x => x.Selected).getLast?.bind RouteMessage.oif).getD init

/-- One call of `nl_get_oif` on what `*arg` is before, and `*arg` afterwards. A call that follows
a pointer to nowhere, or reads behind the message, has no outcome. -/
def call (prints : Bool) (rtaMax : ℕ) (arg : ℤ) : Stale × RouteMessage → Option ℤ
  | (stale, x) =>
    match (nlGetOif prints rtaMax stale (some arg) : Reading Part Empty Oif).runBelow
        (nlmsgLen x.mem 0) x.mem with
    | some (.ok result) => some (result.arg.getD arg)
    | _ => none

section Call

variable {m : Memory} {prints : Bool} {rtaMax : ℕ} {stale : Stale} {arg : Option ℤ}

/-- The tests come before anything that depends on `arg`. -/
theorem runBelow_nlGetOif (header : 28 ≤ nlmsgLen m 0) (counted : nlmsgLen m 0 < 2 ^ 31) :
    (nlGetOif prints rtaMax stale arg : Reading Part Empty Oif).runBelow (nlmsgLen m 0) m =
      if nlmsgType m 0 = rtmNewroute ∧ Passes m then
        (chooseRoute prints stale arg (routeTable rtaMax m)).runBelow (nlmsgLen m 0) m
      else some (.ok (.plain 0 arg)) := by
  have type : leNat (m.read 4 2) = nlmsgType m 0 := rfl
  have word : leNat (m.read 0 4) = nlmsgLen m 0 := rfl
  have flags : leNat (m.read 24 4) = m.u32 24 := rfl
  have area : (nlmsgHdrlen + rtmsgSize : ℤ) = 28 := rfl
  have len := toInt32_of_range (n := (nlmsgLen m 0 : ℤ) - 28) (by omega) (by omega)
  have positive : ¬ (nlmsgLen m 0 : ℤ) - 28 < 0 := by omega
  have parsed : (parseRtattr rtaMax 28 ((nlmsgLen m 0 : ℤ) - 28) :
      Reading Part Empty AttrTable).runBelow (nlmsgLen m 0) m =
        some (.ok (routeTable rtaMax m)) :=
    Reading.runBelow_eq_some.mpr ⟨safe_parseRtattr (fun off n below => by omega) (by omega),
      run_parseRtattr⟩
  have table (rest : AttrTable → Reading Part Empty Oif) :
      (parseRtattr rtaMax 28 ((nlmsgLen m 0 : ℤ) - 28) >>= rest).runBelow (nlmsgLen m 0) m =
        (rest (routeTable rtaMax m)).runBelow (nlmsgLen m 0) m :=
    Reading.runBelow_bind_ok parsed
  have field {kind : Part} {off n : ℕ} (inside : off + n ≤ 28) (f : ℕ → Reading Part Empty Oif) :
      (Reading.num kind off n >>= f).runBelow (nlmsgLen m 0) m =
        (f (leNat (m.read off n))).runBelow (nlmsgLen m 0) m :=
    Reading.runBelow_num_bind (inside.trans header) f
  simp (disch := decide) only [nlGetOif, field, Reading.runBelow_ite, Reading.runBelow_pure, type,
    word, flags, Memory.leNat_read_one, area, len, positive, table, if_false, Passes]
  split_ifs <;> simp_all

/-- What the last `printf` needs, with what `gate` contains. -/
def RouteMessage.ShowsWith (x : RouteMessage) (stale : Stale) : Prop :=
  (∀ rta ∈ x.last rtaDst, x.Ends rta) ∧ (x.last rtaGateway).elim (stale.gate = false) x.Ends

/-- Printing has an outcome if it gets its strings. -/
theorem safe_printRoute_below (x : RouteMessage) {index : ℤ} :
    (do
      let dest ← printDest (x.last rtaDst)
      let gate ← printGate stale (x.last rtaGateway)
      return { value := 0, arg, router := some (index, dest, gate) } :
        Reading Part Empty Oif).Safe (fun _ off n => off + n ≤ nlmsgLen x.mem 0) x.mem ↔
      x.ShowsWith stale := by
  have word : nlmsgLen x.mem 0 < 2 ^ 32 := Memory.u32_lt
  refine safe_printRoute fun rta _ => ?_
  exact Reading.safe_text (fun p => Nat.succ_le_iff) (by omega)

/-- Printing does not change `*arg`. -/
theorem arg_of_printed {x : Reading Part Empty (List UInt8)}
    {y : List UInt8 → Reading Part Empty (List UInt8)} {index : ℤ} {result : Oif}
    (ran : (do
      let dest ← x
      let gate ← y dest
      return { value := 0, arg, router := some (index, dest, gate) } :
        Reading Part Empty Oif).run m = some (.ok result)) : result.arg = arg := by
  obtain ⟨dest, -, rest⟩ := Reading.run_bind_eq_ok ran
  obtain ⟨gate, -, last⟩ := Reading.run_bind_eq_ok rest
  rw [Reading.run_pure] at last
  obtain rfl := Except.ok.inj (Option.some.inj last)
  rfl

/-- What `nl_get_oif` does to `*arg`: it is assigned on a route without destination if `gate`
is not null, be it initialised or not. Otherwise it is kept, if the route can be printed. -/
theorem call_eq_some (listed : rtaGateway ≤ rtaMax) {arg v : ℤ} {stale : Stale}
    {x : RouteMessage} :
    call prints rtaMax arg (stale, x) = some v ↔
      if x.Eligible ∧ ((x.last rtaGateway).isSome ∨ stale.gate) then x.oif.getD stale.index = v
      else arg = v ∧ (prints = true → x.Tested → x.ShowsWith stale) := by
  have range : nlmsgLen x.mem 0 < 2 ^ 31 + 28 := by
    have := x.counted
    omega
  have entry {t : ℕ} (small : t ≤ rtaGateway) : routeTable rtaMax x.mem t = x.last t :=
    routeTable_apply (small.trans listed) x.header range
  have index : (oifIndex stale (x.last rtaOif) : Reading Part Empty ℤ).runBelow
      (nlmsgLen x.mem 0) x.mem = some (.ok (x.oif.getD stale.index)) := by
    rw [RouteMessage.oif]
    cases found : x.last rtaOif with
    | none => rfl
    | some rta =>
      -- The four bytes of the interface lie inside the message.
      obtain ⟨mem, type⟩ := lastAttr_mem found
      have size := x.words rta mem type
      have inside := (attribute_inside mem).2.2
      have header := x.header
      rw [oifIndex, Reading.runBelow_num_bind (by omega), Reading.runBelow_pure, Option.map_some,
        Option.getD_some, Memory.i32, Memory.u32]
  rw [call, runBelow_nlGetOif x.header x.counted]
  by_cases tested : nlmsgType x.mem 0 = rtmNewroute ∧ Passes x.mem
  swap
  · have other : ¬ (x.Eligible ∧ ((x.last rtaGateway).isSome ∨ stale.gate)) := fun both =>
      tested ⟨both.1.1, both.1.2.1⟩
    rw [if_neg tested, if_neg other]
    simp [Oif.plain, RouteMessage.Tested, tested]
  rw [if_pos tested, chooseRoute, entry (by decide), entry (by decide), entry (by decide),
    Reading.runBelow_bind_ok index, Reading.runBelow_ite]
  by_cases assigned : x.last rtaDst = none ∧ ((x.last rtaGateway).isSome ∨ stale.gate)
  · rw [if_pos ⟨assigned.1, assigned.2, rfl⟩,
      if_pos ⟨⟨tested.1, tested.2, assigned.1⟩, assigned.2⟩]
    simp [Oif.plain]
  · have other : ¬ (x.Eligible ∧ ((x.last rtaGateway).isSome ∨ stale.gate)) := fun both =>
      assigned ⟨both.1.2.2, both.2⟩
    rw [if_neg fun all => assigned ⟨all.1, all.2.1⟩, if_neg other]
    cases prints with
    | false => simp [Oif.plain]
    | true =>
      have shows := @safe_printRoute_below stale (some arg) x (x.oif.getD stale.index)
      rw [if_pos rfl, ← shows, ← Reading.runBelow_isSome]
      generalize ran : Reading.runBelow (nlmsgLen x.mem 0) x.mem _ = outcome
      cases outcome with
      | none =>
        have tests : x.Tested := tested
        simp [tests]
      | some result =>
        rcases result with e | result
        · exact e.elim
        · have kept := arg_of_printed (Reading.runBelow_eq_some.mp ran).2
          simp [kept]

end Call

/-! ### A sequence of calls -/

/-- Whatever the uninitialised locals contain, the calls have an outcome. -/
def Runs (prints : Bool) (rtaMax : ℕ) (init : ℤ) (messages : List RouteMessage) : Prop :=
  ∀ calls : List (Stale × RouteMessage), calls.map Prod.snd = messages →
    ∃ v, calls.foldlM (call prints rtaMax) init = some v

/-- Whatever the uninitialised locals contain, the calls leave `v` in `*arg`. -/
def Leaves (prints : Bool) (rtaMax : ℕ) (init : ℤ) (messages : List RouteMessage) (v : ℤ) : Prop :=
  ∀ calls : List (Stale × RouteMessage), calls.map Prod.snd = messages →
    calls.foldlM (call prints rtaMax) init = some v

section Sequence

variable {prints : Bool} {rtaMax : ℕ} {init v : ℤ} {messages : List RouteMessage} {x : RouteMessage}

/-- A sequence of calls is one on the messages before the last, and one on the last. -/
theorem forall_calls_concat {P : List (Stale × RouteMessage) → Prop} :
    (∀ calls : List (Stale × RouteMessage), calls.map Prod.snd = messages ++ [x] → P calls) ↔
      ∀ calls : List (Stale × RouteMessage), calls.map Prod.snd = messages →
        ∀ stale, P (calls ++ [(stale, x)]) := by
  constructor
  · intro every calls along stale
    exact every _ (by rw [List.map_append, along]; rfl)
  · intro every calls along
    obtain ⟨before, after, rfl, along_before, along_after⟩ := List.map_eq_append_iff.mp along
    obtain ⟨⟨stale, y⟩, rfl, rfl⟩ := List.map_eq_singleton_iff.mp along_after
    exact every before along_before stale

/-- The last call starts from what the others left. -/
theorem foldlM_concat {calls : List (Stale × RouteMessage)} {stale : Stale} :
    (calls ++ [(stale, x)]).foldlM (call prints rtaMax) init = some v ↔
      ∃ w, calls.foldlM (call prints rtaMax) init = some w ∧
        call prints rtaMax w (stale, x) = some v := by
  simp [List.foldlM_append, Option.bind_eq_some_iff]

/-- There is a sequence of calls on any messages. -/
theorem exists_calls (messages : List RouteMessage) :
    ∃ calls : List (Stale × RouteMessage), calls.map Prod.snd = messages :=
  ⟨messages.map fun y => (({ index := 0, gate := false } : Stale), y), by simp⟩

/-- A route has an outcome in every case if it can be printed. -/
theorem shows_iff (prints : Bool) :
    (∀ stale, ¬ (x.Eligible ∧ ((x.last rtaGateway).isSome ∨ stale.gate)) →
      prints = true → x.Tested → x.ShowsWith stale) ↔ (prints = true → x.Shows) := by
  constructor
  · intro outcomes on tested dest
    -- A `gate` that is not null shows what must be there.
    have shows := outcomes { index := 0, gate := true } (fun both => by
      rw [both.1.2.2] at dest
      cases dest) on tested
    refine ⟨?_, shows.1⟩
    cases gateway : x.last rtaGateway with
    | none => simpa [gateway] using shows.2
    | some rta => exact ⟨rta, rfl, by simpa [gateway] using shows.2⟩
  · intro shows stale other on tested
    cases dest : x.last rtaDst with
    | none =>
      -- Nothing is assigned, so there is no gateway and `gate` is null.
      have absent := not_and.mp other ⟨tested.1, tested.2, dest⟩
      refine ⟨by simp [dest], ?_⟩
      cases gateway : x.last rtaGateway with
      | none => simpa [gateway] using absent
      | some rta => simp [gateway] at absent
    | some rta =>
      obtain ⟨⟨gate, found, ends⟩, strings⟩ := shows on tested (by rw [dest]; rfl)
      refine ⟨strings, ?_⟩
      rw [Option.mem_def.mp found]
      exact ends

/-- A route without destination is not printed. -/
theorem shows_of_eligible (eligible : x.Eligible) : x.Shows := by
  intro _ dest
  rw [eligible.2.2] at dest
  cases dest

theorem runs_concat (listed : rtaGateway ≤ rtaMax) :
    Runs prints rtaMax init (messages ++ [x]) ↔
      Runs prints rtaMax init messages ∧ (prints = true → x.Shows) := by
  rw [Runs, forall_calls_concat, ← shows_iff]
  simp only [foldlM_concat, call_eq_some listed]
  constructor
  · intro runs
    refine ⟨fun calls along => ?_, fun stale other => ?_⟩
    · obtain ⟨v, w, before, -⟩ := runs calls along { index := 0, gate := false }
      exact ⟨w, before⟩
    · obtain ⟨calls, along⟩ := exists_calls messages
      obtain ⟨v, w, -, last⟩ := runs calls along stale
      rw [if_neg other] at last
      exact last.2
  · rintro ⟨before, shows⟩ calls along stale
    obtain ⟨w, ran⟩ := before calls along
    by_cases assigned : x.Eligible ∧ ((x.last rtaGateway).isSome ∨ stale.gate)
    · exact ⟨_, w, ran, (if_pos assigned).mpr rfl⟩
    · exact ⟨w, w, ran, (if_neg assigned).mpr ⟨rfl, shows stale assigned⟩⟩

/-- The calls have an outcome if all routes that are printed can be. -/
theorem runs_iff (listed : rtaGateway ≤ rtaMax) (messages : List RouteMessage) :
    Runs prints rtaMax init messages ↔ (prints = true → ∀ x ∈ messages, x.Shows) := by
  induction messages using List.reverseRecOn with
  | nil =>
    refine iff_of_true (fun calls none => ⟨init, ?_⟩) (by simp)
    rw [List.map_eq_nil_iff.mp none]
    rfl
  | append_singleton messages x ih =>
    rw [runs_concat listed, ih]
    simp only [List.mem_append, List.mem_singleton, or_imp, forall_and, forall_eq]

theorem leaves_concat : Leaves prints rtaMax init (messages ++ [x]) v ↔
    ∀ calls : List (Stale × RouteMessage), calls.map Prod.snd = messages → ∀ stale,
      ∃ w, calls.foldlM (call prints rtaMax) init = some w ∧
        call prints rtaMax w (stale, x) = some v := by
  rw [Leaves, forall_calls_concat]
  simp only [foldlM_concat]

/-- A route that is meant decides alone. -/
theorem leaves_concat_of_selected (listed : rtaGateway ≤ rtaMax) (meant : x.Selected) :
    Leaves prints rtaMax init (messages ++ [x]) (x.oif.getD init) ↔
      Runs prints rtaMax init messages := by
  obtain ⟨eligible, gateway, interface⟩ := meant
  have brings (stale : Stale) : x.oif.getD stale.index = x.oif.getD init := by
    obtain ⟨rta, found⟩ := Option.isSome_iff_exists.mp interface
    rw [RouteMessage.oif, found]
    rfl
  simp only [leaves_concat, call_eq_some listed, Runs, eligible, gateway, true_or, and_self,
    if_true, brings, and_true]
  exact ⟨fun every calls along => every calls along { index := 0, gate := false },
    fun every calls along _ => every calls along⟩

/-- Any other route must not bring another interface, and must be one that can be printed. -/
theorem leaves_concat_of_not_selected (listed : rtaGateway ≤ rtaMax) (other : ¬ x.Selected) :
    Leaves prints rtaMax init (messages ++ [x]) v ↔ Leaves prints rtaMax init messages v ∧
      (prints = true → x.Shows) ∧ (x.Eligible → x.oif = some v) := by
  rw [leaves_concat, ← shows_iff]
  simp only [call_eq_some listed]
  constructor
  · intro last
    have brings : x.Eligible → x.oif = some v := by
      -- With `gate` not null and two different interfaces only the message can decide.
      intro eligible
      obtain ⟨calls, along⟩ := exists_calls messages
      obtain ⟨w, -, first⟩ := last calls along { index := v + 1, gate := true }
      rw [if_pos ⟨eligible, .inr rfl⟩] at first
      cases interface : x.oif with
      | none =>
        rw [interface, Option.getD_none] at first
        exact absurd first (by dsimp only; omega)
      | some index =>
        rw [interface, Option.getD_some] at first
        rw [first]
    refine ⟨fun calls along => ?_, fun stale free => ?_, brings⟩
    · have absent : ¬ (x.Eligible ∧ (x.last rtaGateway).isSome) := fun ⟨eligible, gateway⟩ =>
        other ⟨eligible, gateway, by
          have found := brings eligible
          rw [RouteMessage.oif, Option.map_eq_some_iff] at found
          obtain ⟨rta, last, -⟩ := found
          rw [last]
          rfl⟩
      obtain ⟨w, ran, kept⟩ := last calls along { index := 0, gate := false }
      rw [if_neg (by simpa using absent)] at kept
      rw [ran, kept.1]
    · obtain ⟨calls, along⟩ := exists_calls messages
      obtain ⟨w, -, kept⟩ := last calls along stale
      rw [if_neg free] at kept
      exact kept.2
  · rintro ⟨leaves, shows, brings⟩ calls along stale
    refine ⟨v, leaves calls along, ?_⟩
    split_ifs with assigned
    · rw [brings assigned.1, Option.getD_some]
    · exact ⟨rfl, shows stale assigned⟩

theorem selected_concat : selected init (messages ++ [x]) =
    if x.Selected then x.oif.getD init else selected init messages := by
  rw [selected, selected, List.filter_append]
  by_cases meant : x.Selected
  · rw [if_pos meant, List.filter_cons_of_pos (by simpa using meant), List.filter_nil,
      List.getLast?_concat, Option.bind_some]
  · rw [if_neg meant, List.filter_cons_of_neg (by simpa using meant), List.filter_nil,
      List.append_nil]

end Sequence

/-- A sequence of calls leaves the output interface of the last route that is meant, whatever
the uninitialised locals contain, if and only if every route that is printed can be, and every
later route without destination that passes the tests brings the same interface. -/
theorem defaultRoute_exact {prints : Bool} {rtaMax : ℕ} (listed : rtaGateway ≤ rtaMax) (init : ℤ)
    (messages : List RouteMessage) :
    Leaves prints rtaMax init messages (selected init messages) ↔
      (prints = true → ∀ x ∈ messages, x.Shows) ∧
        ∀ x ∈ messages.rtakeWhile (fun x => ¬ x.Selected),
          x.Eligible → x.oif = some (selected init messages) := by
  induction messages using List.reverseRecOn with
  | nil =>
    refine iff_of_true (fun calls none => ?_) (by simp)
    rw [List.map_eq_nil_iff.mp none]
    rfl
  | append_singleton messages x ih =>
    rw [selected_concat]
    by_cases meant : x.Selected
    · -- It has no destination, and nothing comes after it.
      have shows := shows_of_eligible meant.1
      rw [if_pos meant, List.rtakeWhile_concat_neg _ _ _ (by simpa using meant),
        leaves_concat_of_selected listed meant, runs_iff listed]
      simp [or_imp, forall_and, shows]
    · rw [if_neg meant, List.rtakeWhile_concat_pos _ _ _ (by simpa using meant),
        leaves_concat_of_not_selected listed meant, ih]
      simp only [List.mem_append, List.mem_singleton, or_imp, forall_and, forall_eq]
      tauto

/-! ### Three messages -/

/-- The bytes of a default route with the given attributes, set up by an administrator. -/
def routeMem (attrs : List UInt8) : Memory :=
  Memory.write (fun _ => 0) 0 (leBytes 4 (28 + attrs.length) ++ leBytes 2 rtmNewroute ++
    List.replicate 10 0 ++ [2, 0, 0, 0, 254, 3, 0, 1, 0, 0, 0, 0] ++ attrs)

/-- `RTA_OIF` for interface 3. -/
def deviceAttrs : List UInt8 := [8, 0, 4, 0, 3, 0, 0, 0]

/-- `RTA_OIF` for interface 2, and a gateway. -/
def gatewayAttrs : List UInt8 := [8, 0, 4, 0, 2, 0, 0, 0, 8, 0, 5, 0, 10, 0, 0, 1]

theorem attributes_deviceAttrs :
    attributes (routeMem deviceAttrs) 28 (nlmsgLen (routeMem deviceAttrs) 0 - 28) = [28] := by
  rw [show nlmsgLen (routeMem deviceAttrs) 0 - 28 = 8 by decide,
    attributes_cons (n := 8) (by decide) (by decide) (by decide), attributes_nil (by decide)]

theorem attributes_gatewayAttrs :
    attributes (routeMem gatewayAttrs) 28 (nlmsgLen (routeMem gatewayAttrs) 0 - 28) = [28, 36] := by
  rw [show nlmsgLen (routeMem gatewayAttrs) 0 - 28 = 16 by decide,
    attributes_cons (n := 8) (by decide) (by decide) (by decide),
    attributes_cons (n := 8) (by decide) (by decide) (by decide), attributes_nil (by decide)]
  rfl

/-- A default route through a device, without a gateway. -/
def deviceRoute : RouteMessage where
  mem := routeMem deviceAttrs
  header := by decide
  counted := by decide
  filled := filled_cons (n := 8) (by decide) (by decide) (by decide) filled_zero
  words := by
    rw [attributes_deviceAttrs]
    decide

/-- A default route through a gateway. -/
def gatewayRoute : RouteMessage where
  mem := routeMem gatewayAttrs
  header := by decide
  counted := by decide
  filled := filled_cons (n := 8) (by decide) (by decide) (by decide)
    (filled_cons (n := 8) (by decide) (by decide) (by decide) filled_zero)
  words := by
    rw [attributes_gatewayAttrs]
    decide

theorem last_deviceRoute (t : ℕ) : deviceRoute.last t =
    ([28].filter fun rta => rtaType (routeMem deviceAttrs) rta = t).getLast? := by
  rw [RouteMessage.last, lastAttr, deviceRoute, attributes_deviceAttrs]

theorem last_gatewayRoute (t : ℕ) : gatewayRoute.last t =
    ([28, 36].filter fun rta => rtaType (routeMem gatewayAttrs) rta = t).getLast? := by
  rw [RouteMessage.last, lastAttr, gatewayRoute, attributes_gatewayAttrs]

theorem gatewayRoute_selected : gatewayRoute.Selected := by
  refine ⟨⟨by decide, by decide, ?_⟩, ?_, ?_⟩
  · rw [last_gatewayRoute]
    decide
  · rw [last_gatewayRoute]
    decide
  · rw [last_gatewayRoute]
    decide

theorem deviceRoute_eligible : deviceRoute.Eligible := by
  refine ⟨by decide, by decide, ?_⟩
  rw [last_deviceRoute]
  decide

theorem deviceRoute_not_selected : ¬ deviceRoute.Selected := by
  rintro ⟨-, gateway, -⟩
  rw [last_deviceRoute] at gateway
  exact absurd gateway (by decide)

theorem deviceRoute_oif : deviceRoute.oif = some 3 := by
  rw [RouteMessage.oif, last_deviceRoute, show ([28].filter fun rta =>
    rtaType (routeMem deviceAttrs) rta = rtaOif).getLast? = some 28 by decide, Option.map_some]
  exact congrArg some (toInt32_of_range (n := 3) (by decide) (by decide))

theorem defaultRoute_exact_gateway :
    rtaGateway ≤ 8 ∧ Leaves true 8 0 [deviceRoute, gatewayRoute]
      (selected 0 [deviceRoute, gatewayRoute]) := by
  refine ⟨by decide, (defaultRoute_exact (by decide) 0 _).mpr ⟨fun _ => ?_, ?_⟩⟩
  · -- Neither route has a destination.
    simp only [List.forall_mem_cons, List.not_mem_nil, false_imp_iff, implies_true, and_true]
    exact ⟨shows_of_eligible deviceRoute_eligible, shows_of_eligible gatewayRoute_selected.1⟩
  -- Nothing comes after the route through the gateway.
  have nothing : [deviceRoute, gatewayRoute].rtakeWhile (fun x => ¬ x.Selected) = [] :=
    List.rtakeWhile_concat_neg _ [deviceRoute] _ (by simpa using gatewayRoute_selected)
  rw [nothing]
  simp

/-- `RTA_DST` for 10.1.2.3, and `RTA_OIF` for interface 3. -/
def subnetAttrs : List UInt8 := [8, 0, 1, 0, 10, 1, 2, 3, 8, 0, 4, 0, 3, 0, 0, 0]

theorem attributes_subnetAttrs :
    attributes (routeMem subnetAttrs) 28 (nlmsgLen (routeMem subnetAttrs) 0 - 28) = [28, 36] := by
  rw [show nlmsgLen (routeMem subnetAttrs) 0 - 28 = 16 by decide,
    attributes_cons (n := 8) (by decide) (by decide) (by decide),
    attributes_cons (n := 8) (by decide) (by decide) (by decide), attributes_nil (by decide)]
  rfl

/-- A route to a destination through a device, without a gateway. -/
def subnetRoute : RouteMessage where
  mem := routeMem subnetAttrs
  header := by decide
  counted := by decide
  filled := filled_cons (n := 8) (by decide) (by decide) (by decide)
    (filled_cons (n := 8) (by decide) (by decide) (by decide) filled_zero)
  words := by
    rw [attributes_subnetAttrs]
    decide

theorem last_subnetRoute (t : ℕ) : subnetRoute.last t =
    ([28, 36].filter fun rta => rtaType (routeMem subnetAttrs) rta = t).getLast? := by
  rw [RouteMessage.last, lastAttr, subnetRoute, attributes_subnetAttrs]

/-- A route to a destination without a gateway cannot be printed, if the uninitialised `gate` is
not null. -/
theorem call_subnetRoute (arg : ℤ) :
    call true 8 arg ({ index := 0, gate := true }, subnetRoute) = none := by
  have dest : subnetRoute.last rtaDst = some 28 := by
    rw [last_subnetRoute]
    decide
  have gateway : subnetRoute.last rtaGateway = none := by
    rw [last_subnetRoute]
    decide
  rw [Option.eq_none_iff_forall_ne_some]
  intro v outcome
  rw [call_eq_some (by decide), if_neg fun both => by
    rw [both.1.2.2] at dest
    cases dest] at outcome
  have shows := (outcome.2 rfl ⟨by decide, by decide⟩).2
  rw [gateway] at shows
  cases shows

/-- A route through a device is taken for the default route, if the uninitialised `gate` is not
null; both programs have the test. And the program that prints routes does not come to the
default route behind a route to a subnet, if `gate` points nowhere. -/
theorem device_taken :
    [(({ index := 0, gate := true } : Stale), deviceRoute)].foldlM (call true 8) 0 = some 3 ∧
      [(({ index := 0, gate := true } : Stale), deviceRoute)].foldlM (call false 8) 0 = some 3 ∧
      selected 0 [deviceRoute] = 0 ∧
      [(({ index := 0, gate := true } : Stale), subnetRoute),
        ({ index := 0, gate := true }, gatewayRoute)].foldlM (call true 8) 0 = none := by
  have taken (prints : Bool) : [(({ index := 0, gate := true } : Stale), deviceRoute)].foldlM
      (call prints 8) 0 = some 3 := by
    have assigned : call prints 8 0 ({ index := 0, gate := true }, deviceRoute) = some 3 := by
      rw [call_eq_some (by decide), if_pos ⟨deviceRoute_eligible, .inr rfl⟩, deviceRoute_oif]
      rfl
    rw [List.foldlM_cons, assigned]
    rfl
  refine ⟨taken true, taken false, ?_, ?_⟩
  · rw [← List.nil_append [deviceRoute], selected_concat, if_neg deviceRoute_not_selected]
    rfl
  · rw [List.foldlM_cons, call_subnetRoute]
    rfl

end LinuxProgram.GetAddr
