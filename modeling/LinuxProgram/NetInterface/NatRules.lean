import Mathlib.Data.Int.Basic
import Mathlib.Data.List.Basic
import Mathlib.Tactic.Common

/-!
# NAT rules of the namespace launcher

`net_interface` starts a shell in its own network namespace. Its `main` connects the
namespace with a pair of virtual interfaces, adds two rules to the `nat` table, waits
for the shell and cleans up. Everything it does to the network it does through
`system`.

The functions of `interface.c` that `main` calls are programs on a `World`: the
commands issued so far with their results, the `nat` table these commands act on, and
the calls of `nat_rule_del`. What `system` and `calloc` return is up to the
environment.

## Main definitions

* `Command`, `World`, `system` — commands and what they do
* `dnatRuleSet`, `snatRuleSet`, `natRuleDel`, `main` — the code
* `CleanedUp` — every rule that was added has been deleted, and no other

## Main results

* `main_natTable` — the rules that were added are still there at the end
* `main_cleanedUp_iff` — the clean-up is right exactly if there was nothing to clean up
-/

namespace LinuxProgram.NetInterface

/-! ### Commands -/

/-- The commands that the program hands to `system`. -/
inductive Command
  /-- `ip link add <ifE> type veth peer name <ifV>`. -/
  | linkAdd (ifE ifV : String)
  /-- `ip link delete <ifE>`. -/
  | linkDelete (ifE : String)
  /-- `ip link set dev <interface> netns <nameSpace>`. -/
  | linkNetns (interface nameSpace : String)
  /-- `ip link set <interface> up`. -/
  | linkUp (interface : String)
  /-- `ip address add <address>/24 dev <interface>`. -/
  | addressAdd (address interface : String)
  /-- `iptables -t nat -A <spec>`. -/
  | natAppend (spec : String)
  /-- `iptables -t nat -D <spec>`. -/
  | natDelete (spec : String)

/-- What a command does to the `nat` table when it succeeds. -/
def Command.onNatTable : Command → List String → List String
  | natAppend spec, table => table ++ [spec]
  | natDelete spec, table => table.erase spec
  | _, table => table

/-- What the program has done so far. -/
structure World where
  /-- The commands issued, each with the result of `system`. -/
  issued : List (Command × ℤ)
  /-- The rules in the `nat` table. -/
  natTable : List String
  /-- The arguments of the calls of `nat_rule_del`. -/
  deletions : List (Option String)

/-- The rule that a command with the given result has added. -/
def addedBy : Command × ℤ → Option String
  | (.natAppend spec, ret) => if ret = 0 then some spec else none
  | _ => none

namespace World

/-- Before the program runs. -/
def start (table : List String) : World := { issued := [], natTable := table, deletions := [] }

/-- The rules whose addition succeeded. -/
def added (w : World) : List String := w.issued.filterMap addedBy

end World

/-- What the operating system decides: the result of each `system` call in order,
whether the two `calloc` calls succeed, and the result of `clone`. -/
structure Env where
  results : ℕ → ℤ
  dnatCalloc : Bool
  snatCalloc : Bool
  childPid : ℤ

/-- `system`. A command that returns 0 has taken effect, any other has not. -/
def system (env : Env) (command : Command) : StateM World ℤ := fun w =>
  let ret := env.results w.issued.length
  (ret, { w with
    issued := w.issued ++ [(command, ret)]
    natTable := if ret = 0 then command.onNatTable w.natTable else w.natTable })

/-! ### The functions of `interface.c` -/

/-- `struct in_addr`, by its four bytes. -/
structure InAddr where
  a : UInt8
  b : UInt8
  c : UInt8
  d : UInt8

/-- `inet_ntoa`. -/
def inetNtoa (addr : InAddr) : String :=
  toString addr.a ++ "." ++ toString addr.b ++ "." ++ toString addr.c ++ "." ++ toString addr.d

/-- `struct dnat_rule`. -/
structure DnatRule where
  devName : String
  dport : ℤ
  addr : InAddr
  cport : ℤ

/-- `struct snat_rule`, without the mask, which is never read. -/
structure SnatRule where
  interface : String
  addr : InAddr

/-- `virtual_interface_create`. -/
def virtualInterfaceCreate (env : Env) : Option String → Option String → StateM World ℤ
  | some ifE, some ifV => system env (.linkAdd ifE ifV)
  | _, _ => pure (-1)

/-- `virtual_interface_del`. -/
def virtualInterfaceDel (env : Env) : Option String → StateM World ℤ
  | some ifE => system env (.linkDelete ifE)
  | none => pure (-1)

/-- `interface_set_addr`. -/
def interfaceSetAddr (env : Env) (interface : String) (addr : InAddr) : StateM World ℤ := do
  let _ ← system env (.addressAdd (inetNtoa addr) interface)
  return 0

/-- `interface_to_namespace`. -/
def interfaceToNamespace (env : Env) : Option String → Option String → StateM World ℤ
  | some nameSpace, some interface => system env (.linkNetns interface nameSpace)
  | _, _ => pure (-1)

/-- `interface_set_up`. -/
def interfaceSetUp (env : Env) : Option String → StateM World ℤ
  | some interface => system env (.linkUp interface)
  | none => pure (-1)

/-- `dnat_make_cmd`. -/
def dnatMakeCmd (calloc : Bool) (rule : DnatRule) : Option String :=
  if calloc then
    some (" PREROUTING -p tcp --dport " ++ toString rule.dport ++ " -i " ++ rule.devName ++
      "  -j DNAT --to " ++ inetNtoa rule.addr ++ ":" ++ toString rule.cport)
  else none

/-- `snat_make_cmd`. -/
def snatMakeCmd (calloc : Bool) (rule : SnatRule) : Option String :=
  if calloc then
    some (" POSTROUTING -s " ++ inetNtoa rule.addr ++ " -o " ++ rule.interface ++ " -j MASQUERADE")
  else none

/-- The out-parameters of the two functions that add a rule. -/
structure RuleText where
  cmdData : Option String
  len : ℤ

/-- The common part of `dnat_rule_set` and `snat_rule_set`: add the rule, and on
`ret > 0` hand the text over through the out-parameters. -/
def natRuleSet (env : Env) (data : Option String) (out : RuleText) : StateM World (ℤ × RuleText) :=
  match data with
  | none => pure (-1, out)
  | some data => do
    let ret ← system env (.natAppend data)
    -- `system` returns 0 on success, so a rule that was added is not handed over.
    if ret > 0 then return (0, { cmdData := some data, len := data.length }) else return (-1, out)

/-- `dnat_rule_set`. -/
def dnatRuleSet (env : Env) (rule : DnatRule) (out : RuleText) : StateM World (ℤ × RuleText) :=
  natRuleSet env (dnatMakeCmd env.dnatCalloc rule) out

/-- `snat_rule_set`. -/
def snatRuleSet (env : Env) (rule : SnatRule) (out : RuleText) : StateM World (ℤ × RuleText) :=
  natRuleSet env (snatMakeCmd env.snatCalloc rule) out

/-- `nat_rule_del`. -/
def natRuleDel (env : Env) (cmdData : Option String) : StateM World ℤ := do
  modify fun w => { w with deletions := w.deletions ++ [cmdData] }
  match cmdData with
  | none => return -1
  | some spec => system env (.natDelete spec)

/-! ### `main` -/

/-- `vve_ip`, from `"192.168.8.2"`. -/
def vveIp : InAddr := ⟨192, 168, 8, 2⟩

/-- `ve_ip`, from `"192.168.8.1"`. -/
def veIp : InAddr := ⟨192, 168, 8, 1⟩

/-- `d_rule`. -/
def dRule : DnatRule := { devName := "eth0", dport := 9999, addr := vveIp, cport := 9999 }

/-- `s_rule`. -/
def sRule : SnatRule := { interface := "eth0", addr := vveIp }

/-- The commands of `main` before it adds the rules. -/
def setUpInterfaces (env : Env) : StateM World Unit := do
  let _ ← virtualInterfaceCreate env (some "veth0") (some "vveth0")
  let _ ← interfaceToNamespace env (some (toString env.childPid)) (some "vveth0")
  let _ ← interfaceSetAddr env "veth0" veIp
  let _ ← interfaceSetUp env (some "veth0")

/-- `if(!str) nat_rule_del(str);`, with the test as `main` has it. -/
def cleanUpRule (env : Env) (out : RuleText) : StateM World Unit := do
  if out.cmdData.isNone then
    let _ ← natRuleDel env out.cmdData

/-- `main`, from the creation of the interfaces on. `dnat_len` and `snat_len` start
with whatever the stack holds. -/
def main (env : Env) (dnatLen snatLen : ℤ) : StateM World ℤ := do
  setUpInterfaces env
  let (_, dnat) ← dnatRuleSet env dRule { cmdData := none, len := dnatLen }
  let (_, snat) ← snatRuleSet env sRule { cmdData := none, len := snatLen }
  cleanUpRule env dnat
  cleanUpRule env snat
  let _ ← virtualInterfaceDel env (some "veth0")
  return 0

/-! ### What `main` does to the world -/

section Effects

variable (env : Env) (w : World)

/-- The world after a command. -/
def World.run (command : Command) : World := (system env command w).2

/-- The world after an attempt to add a rule, if there is memory for its text. -/
def World.addRule : Option String → World
  | none => w
  | some spec => w.run env (.natAppend spec)

/-- The world after some more calls of `nat_rule_del`, without any command. -/
def World.delete (calls : List (Option String)) : World :=
  { w with deletions := w.deletions ++ calls }

/-- The world after the interfaces have been set up. -/
def World.setUp : World :=
  (((w.run env (.linkAdd "veth0" "vveth0")).run env
    (.linkNetns "vveth0" (toString env.childPid))).run env
    (.addressAdd (inetNtoa veIp) "veth0")).run env (.linkUp "veth0")

theorem natRuleSet_world (data : Option String) (out : RuleText) :
    (natRuleSet env data out w).2 = w.addRule env data := by
  cases data with
  | none => rfl
  | some spec =>
    -- Whatever the result, only the out-parameters depend on it.
    change ((if env.results w.issued.length > 0 then
      (pure (0, { cmdData := some spec, len := spec.length }) : StateM World (ℤ × RuleText))
      else pure (-1, out)) (w.run env (.natAppend spec))).2 = _
    split_ifs <;> rfl

/-- The inverted test lets only null pointers through to `nat_rule_del`. -/
theorem cleanUpRule_world (out : RuleText) :
    ∃ calls, (∀ call ∈ calls, call = none) ∧ (cleanUpRule env out w).2 = w.delete calls := by
  cases h : out.cmdData with
  | none =>
    refine ⟨[none], by simp, ?_⟩
    rw [cleanUpRule, h]
    rfl
  | some spec =>
    refine ⟨[], by simp, ?_⟩
    rw [cleanUpRule, h]
    simp [World.delete]
    rfl

/-- `main` sets up, tries to add both rules, and deletes nothing. -/
theorem main_world (dnatLen snatLen : ℤ) :
    ∃ calls, (∀ call ∈ calls, call = none) ∧
      (main env dnatLen snatLen w).2 =
        ((((w.setUp env).addRule env (dnatMakeCmd env.dnatCalloc dRule)).addRule env
          (snatMakeCmd env.snatCalloc sRule)).delete calls).run env (.linkDelete "veth0") := by
  obtain ⟨⟨_, dnat⟩, hdnat⟩ : ∃ r, (dnatRuleSet env dRule ⟨none, dnatLen⟩ (w.setUp env)).1 = r :=
    ⟨_, rfl⟩
  set w₁ := (dnatRuleSet env dRule ⟨none, dnatLen⟩ (w.setUp env)).2 with hw₁
  obtain ⟨⟨_, snat⟩, hsnat⟩ : ∃ r, (snatRuleSet env sRule ⟨none, snatLen⟩ w₁).1 = r := ⟨_, rfl⟩
  set w₂ := (snatRuleSet env sRule ⟨none, snatLen⟩ w₁).2 with hw₂
  obtain ⟨first, first_none, hfirst⟩ := cleanUpRule_world env w₂ dnat
  obtain ⟨second, second_none, hsecond⟩ := cleanUpRule_world env (w₂.delete first) snat
  refine ⟨first ++ second, ?_, ?_⟩
  · intro call hcall
    exact (List.mem_append.mp hcall).elim (first_none call) (second_none call)
  · -- Both rules are added before either clean-up, and each step hands on its world.
    have run : (main env dnatLen snatLen w).2 =
        (cleanUpRule env (snatRuleSet env sRule ⟨none, snatLen⟩ w₁).1.2
          (cleanUpRule env (dnatRuleSet env dRule ⟨none, dnatLen⟩ (w.setUp env)).1.2 w₂).2).2.run
            env (.linkDelete "veth0") := rfl
    rw [run, hdnat, hsnat, hfirst, hsecond, hw₂, snatRuleSet, natRuleSet_world, hw₁, dnatRuleSet,
      natRuleSet_world, World.delete, World.delete, World.delete, List.append_assoc]

/-! ### The `nat` table -/

variable {env w}

@[simp] theorem run_length (command : Command) :
    (w.run env command).issued.length = w.issued.length + 1 := by
  simp [World.run, system]

theorem run_added (command : Command) :
    (w.run env command).added =
      w.added ++ (addedBy (command, env.results w.issued.length)).toList := by
  have issued : (w.run env command).issued =
      w.issued ++ [(command, env.results w.issued.length)] := rfl
  rw [World.added, issued, List.filterMap_append, ← World.added]
  cases h : addedBy (command, env.results w.issued.length) <;> simp [h]

/-- The table has only grown by the rules that were added. -/
structure Grown (table : List String) (w : World) : Prop where
  natTable : w.natTable = table ++ w.added
  none_deleted : ∀ spec ret, (Command.natDelete spec, ret) ∉ w.issued

namespace Grown

variable {table : List String}

/-- Every command other than a deletion keeps `Grown`. -/
theorem run (grown : Grown table w) {command : Command}
    (keeps : ∀ spec, command ≠ .natDelete spec) : Grown table (w.run env command) := by
  constructor
  · have effect : (w.run env command).natTable =
        if env.results w.issued.length = 0 then command.onNatTable w.natTable
        else w.natTable := rfl
    rw [effect, run_added, grown.natTable]
    cases command with
    | natAppend spec =>
      by_cases success : env.results w.issued.length = 0 <;>
        simp [addedBy, Command.onNatTable, success]
    | natDelete spec => exact absurd rfl (keeps spec)
    | _ => simp [addedBy, Command.onNatTable]
  · intro spec ret issued
    rcases List.mem_append.mp issued with old | new
    · exact grown.none_deleted spec ret old
    · exact keeps spec (Prod.mk.inj (List.mem_singleton.mp new)).1.symm

theorem addRule (grown : Grown table w) (data : Option String) :
    Grown table (w.addRule env data) := by
  cases data with
  | none => exact grown
  | some spec => exact grown.run (fun _ => nofun)

theorem delete (grown : Grown table w) (calls : List (Option String)) :
    Grown table (w.delete calls) :=
  ⟨grown.natTable, grown.none_deleted⟩

theorem setUp (grown : Grown table w) : Grown table (w.setUp env) := by
  refine Grown.run (Grown.run (Grown.run (Grown.run grown ?_) ?_) ?_) ?_ <;> exact fun _ => nofun

end Grown

theorem setUp_length : (w.setUp env).issued.length = w.issued.length + 4 := by
  simp [World.setUp]

theorem setUp_added : (w.setUp env).added = w.added := by
  simp [World.setUp, run_added, addedBy]

/-- An attempt adds nothing exactly if there was no memory or the command failed. -/
theorem addRule_added_eq_nil (data : Option String) :
    (w.addRule env data).added = [] ↔
      w.added = [] ∧ (data.isSome → env.results w.issued.length ≠ 0) := by
  cases data with
  | none => simp [World.addRule]
  | some spec => simp [World.addRule, run_added, addedBy]

end Effects

/-- The rules that `main` has added are still in the table when it returns. -/
theorem main_natTable (env : Env) (dnatLen snatLen : ℤ) (table : List String) :
    Grown table (main env dnatLen snatLen (.start table)).2 := by
  obtain ⟨calls, -, run⟩ := main_world env (.start table) dnatLen snatLen
  have start : Grown table (.start table) := ⟨(List.append_nil table).symm, by simp [World.start]⟩
  rw [run]
  exact (((start.setUp.addRule _).addRule _).delete calls).run (fun _ => nofun)

/-- `main` adds no rule exactly if each of the two attempts lacked memory or failed. -/
theorem main_added_eq_nil (env : Env) (dnatLen snatLen : ℤ) (table : List String) :
    (main env dnatLen snatLen (.start table)).2.added = [] ↔
      (env.dnatCalloc → env.results 4 ≠ 0) ∧
        (env.snatCalloc → env.results (if env.dnatCalloc then 5 else 4) ≠ 0) := by
  obtain ⟨calls, -, run⟩ := main_world env (.start table) dnatLen snatLen
  have clean_up (w : World) :
      ((w.delete calls).run env (.linkDelete "veth0")).added = w.added := by
    rw [run_added]
    exact List.append_nil _
  have empty : (World.start table).added = [] := rfl
  have first : ((World.start table).setUp env).issued.length = 4 := setUp_length
  -- The index of the second attempt depends on whether the first got as far as `system`.
  have second : (((World.start table).setUp env).addRule env
      (dnatMakeCmd env.dnatCalloc dRule)).issued.length = if env.dnatCalloc then 5 else 4 := by
    cases env.dnatCalloc <;> simp [dnatMakeCmd, World.addRule, first]
  rw [run, clean_up, addRule_added_eq_nil, addRule_added_eq_nil, setUp_added, first, second]
  cases env.dnatCalloc <;> cases env.snatCalloc <;> simp [dnatMakeCmd, snatMakeCmd, empty]

/-! ### Clean-up -/

/-- Every rule that was added has been deleted by exactly one call of
`nat_rule_del`, and no other rule has; so the table is as before once the deletions
have succeeded. -/
structure CleanedUp (before after : World) : Prop where
  deleted_once : ∀ spec ∈ after.added, after.deletions.count (some spec) = 1
  only_added : ∀ spec ret, (Command.natDelete spec, ret) ∈ after.issued → spec ∈ after.added
  restored : (∀ spec ret, (Command.natDelete spec, ret) ∈ after.issued → ret = 0) →
    after.natTable = before.natTable

theorem main_deletions (env : Env) (dnatLen snatLen : ℤ) (table : List String) (spec : String) :
    (main env dnatLen snatLen (.start table)).2.deletions.count (some spec) = 0 := by
  obtain ⟨calls, none_only, run⟩ := main_world env (.start table) dnatLen snatLen
  have kept : ∀ (w : World) data, (w.addRule env data).deletions = w.deletions := by
    intro w data
    cases data <;> rfl
  have deletions : (main env dnatLen snatLen (.start table)).2.deletions = calls := by
    rw [run]
    change (World.addRule env (World.addRule env _ _) _).deletions ++ calls = calls
    rw [kept, kept]
    rfl
  rw [deletions, List.count_eq_zero]
  intro deleted
  exact absurd (none_only _ deleted) nofun

/-- A rule that was added has not been deleted. -/
theorem CleanedUp.added_eq_nil {env : Env} {dnatLen snatLen : ℤ} {table : List String}
    (clean : CleanedUp (.start table) (main env dnatLen snatLen (.start table)).2) :
    (main env dnatLen snatLen (.start table)).2.added = [] := by
  -- One of the added rules would need a deletion, and there is none.
  by_contra some_added
  obtain ⟨spec, hspec⟩ := List.exists_mem_of_ne_nil _ some_added
  have once := clean.deleted_once spec hspec
  rw [main_deletions] at once
  exact absurd once (by decide)

/-- **The clean-up of `main` is right exactly if there is nothing to clean up**: each
of the two rules was not added, for lack of memory or because `iptables` failed. -/
theorem main_cleanedUp_iff (env : Env) (dnatLen snatLen : ℤ) (table : List String) :
    CleanedUp (.start table) (main env dnatLen snatLen (.start table)).2 ↔
      (env.dnatCalloc → env.results 4 ≠ 0) ∧
        (env.snatCalloc → env.results (if env.dnatCalloc then 5 else 4) ≠ 0) := by
  have grown := main_natTable env dnatLen snatLen table
  rw [← main_added_eq_nil env dnatLen snatLen table]
  constructor
  · exact CleanedUp.added_eq_nil
  · intro nothing
    refine ⟨?_, ?_, ?_⟩
    · intro spec hspec
      rw [nothing] at hspec
      exact absurd hspec List.not_mem_nil
    · intro spec ret issued
      exact absurd issued (grown.none_deleted spec ret)
    · intro _
      rw [grown.natTable, nothing, List.append_nil]
      rfl

/-- Every allocation and every command succeeds. -/
def smooth : Env :=
  { results := fun _ => 0, dnatCalloc := true, snatCalloc := true, childPid := 4242 }

/-- When every command succeeds, both rules stay in the table of the host. -/
theorem main_leaves_rules :
    ¬ CleanedUp (.start []) (main smooth 0 0 (.start [])).2 ∧
      (main smooth 0 0 (.start [])).2.natTable =
        [" PREROUTING -p tcp --dport 9999 -i eth0  -j DNAT --to 192.168.8.2:9999",
         " POSTROUTING -s 192.168.8.2 -o eth0 -j MASQUERADE"] := by
  refine ⟨?_, rfl⟩
  intro clean
  have nothing := (main_added_eq_nil smooth 0 0 []).mp clean.added_eq_nil
  exact absurd (nothing.1 rfl) (by decide)

end LinuxProgram.NetInterface
