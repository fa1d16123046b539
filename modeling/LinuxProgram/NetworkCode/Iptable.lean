import LinuxProgram.Base.Text
import LinuxProgram.Base.Words
import LinuxProgram.NetInterface.NatRules

/-!
# The NAT rules of `iptable.c`

A rule is turned into the text of an `iptables` rule specification. Adding the rule runs
`iptables -t nat -A` with that text, and deleting it runs `iptables -t nat -D` with the text
that was recorded in the rule.

The text identifies the rule: every number in it ends at a character that no number contains,
and the interface name ends a fixed number of characters before the end of the text. But it is
recorded only if the command has failed, so what a rule holds is not what was appended.

The text and the commands are written to buffers of 128 bytes. The numbers leave enough room
for that, but the interface name can have any length.

## Main definitions

* `dnatMakeCmd`, `snatMakeCmd` — the rule specifications
* `dnatRuleSet`, `snatRuleSet`, `natRuleDel` — adding and deleting a rule
* `NamesAppended` — a rule holds the specification that was appended
* `CommandsFit` — a specification and the commands made from it fit in their buffers

## Main results

* `specs_identify` — a specification identifies its rule, and when it is recorded
* `commandsFit_iff` — how long an interface name may be
-/

namespace LinuxProgram.NetworkCode

open Base

open NetInterface (InAddr)

/-! ### Rules -/

/-- A C string: bytes without the terminator. -/
abbrev CString := { s : List UInt8 // 0 ∉ s }

/-- `PROTO_TCP`. -/
def protoTcp : UInt32 := 0

/-- `PROTO_UDP`. -/
def protoUdp : UInt32 := 1

/-- `struct dnat_rule`. The enumeration `proto` can hold any value of its type. -/
structure DnatRule where
  proto : UInt32
  dport : Int32
  addr : InAddr
  cport : Int32
  cmd : Option (List UInt8)
  cmdLen : ℤ

/-- `struct snat_rule`. -/
structure SnatRule where
  interface : Option CString
  prefixlen : Int32
  addr : InAddr
  cmd : Option (List UInt8)
  cmdLen : ℤ

/-- `inet_ntoa`. -/
def inetNtoa (addr : InAddr) : List UInt8 :=
  decimalNat addr.a.toNat ++ 0x2E :: (decimalNat addr.b.toNat ++
    0x2E :: (decimalNat addr.c.toNat ++ 0x2E :: decimalNat addr.d.toNat))

/-- `dnat_make_cmd`. For another protocol nothing is written to the zeroed buffer. -/
def dnatMakeCmd (calloc : Bool) (rule : DnatRule) : Option (List UInt8) :=
  if calloc then
    if rule.proto = protoTcp then
      some (ascii " PREROUTING -p tcp --dport " ++ decimal rule.dport.toInt ++
        ascii " -j DNAT --to-destination " ++ inetNtoa rule.addr ++ ascii ":" ++
        decimal rule.cport.toInt)
    else if rule.proto = protoUdp then
      some (ascii " PREROUTING -p udp --dport " ++ decimal rule.dport.toInt ++
        ascii "  -j DNAT --to-destination " ++ inetNtoa rule.addr ++ ascii ":" ++
        decimal rule.cport.toInt)
    else some []
  else none

/-- `snat_make_cmd`. -/
def snatMakeCmd (calloc : Bool) (rule : SnatRule) : Option (List UInt8) :=
  match rule.interface with
  | none => none
  | some interface =>
    if rule.prefixlen.toInt < 0 ∨ 32 < rule.prefixlen.toInt then none
    else if calloc then
      some (ascii " POSTROUTING -s " ++ inetNtoa rule.addr ++ ascii "/" ++
        decimal rule.prefixlen.toInt ++ ascii " -o " ++ interface.val ++ ascii " -j MASQUERADE")
    else none

/-- The command that appends a rule. -/
def appendCommand (spec : List UInt8) : List UInt8 := ascii "iptables -t nat -A " ++ spec

/-- The command that deletes a rule. -/
def deleteCommand (spec : List UInt8) : List UInt8 := ascii "iptables -t nat -D " ++ spec

/-- What a call of `dnat_rule_set` or `snat_rule_set` does: its result, the command it runs and
the text it records in the rule. -/
structure RuleSet where
  ret : ℤ
  issued : Option (List UInt8)
  recorded : Option (List UInt8)

/-- The common part of `dnat_rule_set` and `snat_rule_set`. -/
def ruleSet (system : List UInt8 → ℤ) : Option (List UInt8) → RuleSet
  | none => { ret := -1, issued := none, recorded := none }
  | some data =>
    -- A positive status counts as success; a command that works has status 0.
    if 0 < system (appendCommand data) then
      { ret := 0, issued := some (appendCommand data), recorded := some data }
    else { ret := -1, issued := some (appendCommand data), recorded := none }

/-- `dnat_rule_set`, with the rule that it leaves. -/
def dnatRuleSet (system : List UInt8 → ℤ) (calloc : Bool) :
    Option DnatRule → RuleSet × Option DnatRule
  | none => (ruleSet system none, none)
  | some rule =>
    let set := ruleSet system (dnatMakeCmd calloc rule)
    match set.recorded with
    | none => (set, some rule)
    | some data => (set, some { rule with cmd := some data, cmdLen := toInt32 data.length })

/-- `snat_rule_set`, with the rule that it leaves. -/
def snatRuleSet (system : List UInt8 → ℤ) (calloc : Bool) :
    Option SnatRule → RuleSet × Option SnatRule
  | none => (ruleSet system none, none)
  | some rule =>
    let set := ruleSet system (snatMakeCmd calloc rule)
    match set.recorded with
    | none => (set, some rule)
    | some data => (set, some { rule with cmd := some data, cmdLen := toInt32 data.length })

/-- `nat_rule_del`: its result and the command it runs. -/
def natRuleDel (system : List UInt8 → ℤ) : Option (List UInt8) → ℤ × Option (List UInt8)
  | none => (-1, none)
  | some data => (system (deleteCommand data), some (deleteCommand data))

/-! ### What a specification says -/

section Fields

variable {addr addr' : InAddr} {b : UInt8}

theorem inetNtoa_byte (printed : b ∈ inetNtoa addr) :
    b = 0x2E ∨ 0x30 ≤ b.toNat ∧ b.toNat ≤ 0x39 := by
  simp only [inetNtoa, List.mem_append, List.mem_cons] at printed
  rcases printed with digit | dot | digit | dot | digit | dot | digit
  · exact .inr (decimalNat_digit digit)
  · exact .inl dot
  · exact .inr (decimalNat_digit digit)
  · exact .inl dot
  · exact .inr (decimalNat_digit digit)
  · exact .inl dot
  · exact .inr (decimalNat_digit digit)

theorem dot_notMem_decimalNat (n : ℕ) : 0x2E ∉ decimalNat n := fun mem =>
  absurd (decimalNat_digit mem).1 (by decide)

theorem decimalNat_byte_injective {x y : UInt8} (same : decimalNat x.toNat = decimalNat y.toNat) :
    x = y :=
  UInt8.toNat_inj.mp (decimalNat_injective same)

theorem inetNtoa_injective (same : inetNtoa addr = inetNtoa addr') : addr = addr' := by
  -- The numbers contain no dots, so they can be read off one by one.
  obtain ⟨first, rest⟩ := append_separator_inj (dot_notMem_decimalNat _)
    (dot_notMem_decimalNat _) same
  obtain ⟨second, rest⟩ := append_separator_inj (dot_notMem_decimalNat _)
    (dot_notMem_decimalNat _) rest
  obtain ⟨third, fourth⟩ := append_separator_inj (dot_notMem_decimalNat _)
    (dot_notMem_decimalNat _) rest
  obtain ⟨a, b, c, d⟩ := addr
  obtain ⟨a', b', c', d'⟩ := addr'
  rw [InAddr.mk.injEq]
  exact ⟨decimalNat_byte_injective first, decimalNat_byte_injective second,
    decimalNat_byte_injective third, decimalNat_byte_injective fourth⟩

theorem decimal_toInt_injective {x y : Int32} (same : decimal x.toInt = decimal y.toInt) : x = y :=
  Int32.toInt_inj.mp (decimal_injective same)

theorem space_notMem_decimal (n : ℤ) : 0x20 ∉ decimal n := fun mem =>
  absurd (decimal_byte mem).1 (by decide)

theorem colon_notMem_inetNtoa (addr : InAddr) : 0x3A ∉ inetNtoa addr := by
  intro mem
  rcases inetNtoa_byte mem with dot | digit
  · exact absurd dot (by decide)
  · exact absurd digit.2 (by decide)

theorem slash_notMem_inetNtoa (addr : InAddr) : 0x2F ∉ inetNtoa addr := by
  intro mem
  rcases inetNtoa_byte mem with dot | digit
  · exact absurd dot (by decide)
  · exact absurd digit.1 (by decide)

/-- The common shape of the two destination rules: a port, text that starts with a space, an
address and a port. -/
theorem dnat_fields_inj {head behind : List UInt8} {dport dport' cport cport' : Int32}
    (same : head ++ decimal dport.toInt ++ (0x20 :: behind) ++ inetNtoa addr ++ ascii ":" ++
        decimal cport.toInt =
      head ++ decimal dport'.toInt ++ (0x20 :: behind) ++ inetNtoa addr' ++ ascii ":" ++
        decimal cport'.toInt) :
    dport = dport' ∧ addr = addr' ∧ cport = cport' := by
  simp only [List.append_assoc, List.cons_append] at same
  obtain ⟨port, rest⟩ := append_separator_inj (space_notMem_decimal _) (space_notMem_decimal _)
    (List.append_cancel_left same)
  obtain ⟨address, port'⟩ := append_separator_inj (colon_notMem_inetNtoa _)
    (colon_notMem_inetNtoa _) (List.append_cancel_left rest)
  exact ⟨decimal_toInt_injective port, inetNtoa_injective address, decimal_toInt_injective port'⟩

/-- The same for the source rules: an address, a number and a name before the fixed end. -/
theorem snat_fields_inj {head middle tail name name' : List UInt8} {len len' : Int32}
    (same : head ++ inetNtoa addr ++ ascii "/" ++ decimal len.toInt ++ (0x20 :: middle) ++ name ++
        tail =
      head ++ inetNtoa addr' ++ ascii "/" ++ decimal len'.toInt ++ (0x20 :: middle) ++ name' ++
        tail) :
    addr = addr' ∧ len = len' ∧ name = name' := by
  -- The name may contain anything, so the fixed end goes first.
  have cut := List.append_cancel_right same
  simp only [List.append_assoc, List.cons_append] at cut
  obtain ⟨address, rest⟩ := append_separator_inj (slash_notMem_inetNtoa _)
    (slash_notMem_inetNtoa _) (List.append_cancel_left cut)
  obtain ⟨number, rest⟩ := append_separator_inj (space_notMem_decimal _) (space_notMem_decimal _)
    rest
  exact ⟨inetNtoa_injective address, decimal_toInt_injective number, List.append_cancel_left rest⟩

end Fields

/-! ### Specifications identify their rules -/

section Identify

variable {d d' : DnatRule} {r r' : SnatRule} {calloc calloc' : Bool} {x x' y y' : List UInt8}

/-- The protocol is one that `dnat_make_cmd` prints. -/
def DnatRule.Known (rule : DnatRule) : Prop := rule.proto = protoTcp ∨ rule.proto = protoUdp

instance (rule : DnatRule) : Decidable rule.Known := inferInstanceAs (Decidable (_ ∨ _))

theorem dnatMakeCmd_tcp (tcp : d.proto = protoTcp) (made : dnatMakeCmd calloc d = some x) :
    x = ascii " PREROUTING -p tcp --dport " ++ decimal d.dport.toInt ++
      (0x20 :: ascii "-j DNAT --to-destination ") ++ inetNtoa d.addr ++ ascii ":" ++
      decimal d.cport.toInt := by
  unfold dnatMakeCmd at made
  rw [if_pos tcp] at made
  split_ifs at made
  exact (Option.some.inj made).symm

theorem dnatMakeCmd_udp (udp : d.proto = protoUdp) (made : dnatMakeCmd calloc d = some x) :
    x = ascii " PREROUTING -p udp --dport " ++ decimal d.dport.toInt ++
      (0x20 :: ascii " -j DNAT --to-destination ") ++ inetNtoa d.addr ++ ascii ":" ++
      decimal d.cport.toInt := by
  have other : d.proto ≠ protoTcp := by
    rw [udp]
    decide
  unfold dnatMakeCmd at made
  rw [if_neg other, if_pos udp] at made
  split_ifs at made
  exact (Option.some.inj made).symm

/-- What `snat_make_cmd` accepts, and its text. -/
theorem snatMakeCmd_some (made : snatMakeCmd calloc r = some y) :
    ∃ interface : CString, r.interface = some interface ∧ 0 ≤ r.prefixlen.toInt ∧
      r.prefixlen.toInt ≤ 32 ∧
      y = ascii " POSTROUTING -s " ++ inetNtoa r.addr ++ ascii "/" ++ decimal r.prefixlen.toInt ++
        (0x20 :: ascii "-o ") ++ interface.val ++ ascii " -j MASQUERADE" := by
  unfold snatMakeCmd at made
  cases given : r.interface with
  | none =>
    rw [given] at made
    cases made
  | some interface =>
    rw [given] at made
    dsimp only at made
    split_ifs at made with outside
    push Not at outside
    exact ⟨interface, rfl, outside.1, outside.2, (Option.some.inj made).symm⟩

/-- A destination rule is read off its specification. -/
theorem dnatMakeCmd_inj (known : d.Known) (known' : d'.Known)
    (made : dnatMakeCmd calloc d = some x) (made' : dnatMakeCmd calloc' d' = some x) :
    d.proto = d'.proto ∧ d.dport = d'.dport ∧ d.addr = d'.addr ∧ d.cport = d'.cport := by
  rcases known with tcp | udp <;> rcases known' with tcp' | udp'
  · exact ⟨tcp.trans tcp'.symm,
      dnat_fields_inj ((dnatMakeCmd_tcp tcp made).symm.trans (dnatMakeCmd_tcp tcp' made'))⟩
  · -- The names of the protocols end within the first eighteen characters.
    have same := (dnatMakeCmd_tcp tcp made).symm.trans (dnatMakeCmd_udp udp' made')
    simp only [List.append_assoc] at same
    exact absurd same (append_ne_of_take 18 (by decide) (by decide) (by decide))
  · have same := (dnatMakeCmd_udp udp made).symm.trans (dnatMakeCmd_tcp tcp' made')
    simp only [List.append_assoc] at same
    exact absurd same (append_ne_of_take 18 (by decide) (by decide) (by decide))
  · exact ⟨udp.trans udp'.symm,
      dnat_fields_inj ((dnatMakeCmd_udp udp made).symm.trans (dnatMakeCmd_udp udp' made'))⟩

/-- And only what is read off matters. -/
theorem dnatMakeCmd_congr (proto : d.proto = d'.proto) (dport : d.dport = d'.dport)
    (addr : d.addr = d'.addr) (cport : d.cport = d'.cport) (made : dnatMakeCmd calloc d = some x)
    (made' : dnatMakeCmd calloc' d' = some x') : x = x' := by
  -- Both texts were made, so both allocations succeeded.
  have both : calloc = true ∧ calloc' = true := by
    unfold dnatMakeCmd at made made'
    cases calloc <;> cases calloc' <;> simp at made made' ⊢
  rw [both.1] at made
  rw [both.2] at made'
  unfold dnatMakeCmd at made made'
  rw [proto, dport, addr, cport, made'] at made
  exact (Option.some.inj made).symm

theorem snatMakeCmd_inj (made : snatMakeCmd calloc r = some y)
    (made' : snatMakeCmd calloc' r' = some y) :
    r.addr = r'.addr ∧ r.prefixlen = r'.prefixlen ∧ r.interface = r'.interface := by
  obtain ⟨interface, given, -, -, text⟩ := snatMakeCmd_some made
  obtain ⟨interface', given', -, -, text'⟩ := snatMakeCmd_some made'
  obtain ⟨addr, len, name⟩ := snat_fields_inj (text.symm.trans text')
  refine ⟨addr, len, ?_⟩
  rw [given, given', Subtype.ext name]

theorem snatMakeCmd_congr (addr : r.addr = r'.addr) (len : r.prefixlen = r'.prefixlen)
    (interface : r.interface = r'.interface) (made : snatMakeCmd calloc r = some y)
    (made' : snatMakeCmd calloc' r' = some y') : y = y' := by
  obtain ⟨name, given, -, -, text⟩ := snatMakeCmd_some made
  obtain ⟨name', given', -, -, text'⟩ := snatMakeCmd_some made'
  have same : name = name' := Option.some.inj (given.symm.trans (interface.trans given'))
  rw [text, text', addr, len, same]

/-- The two kinds of rules belong to different chains. -/
theorem dnatMakeCmd_ne_snatMakeCmd (known : d.Known) (made : dnatMakeCmd calloc d = some x)
    (made' : snatMakeCmd calloc' r = some y) : x ≠ y := by
  obtain ⟨interface, -, -, -, text⟩ := snatMakeCmd_some made'
  -- `PREROUTING` and `POSTROUTING` differ in their second letter.
  rcases known with tcp | udp
  · rw [dnatMakeCmd_tcp tcp made, text]
    simp only [List.append_assoc]
    exact append_ne_of_take 3 (by decide) (by decide) (by decide)
  · rw [dnatMakeCmd_udp udp made, text]
    simp only [List.append_assoc]
    exact append_ne_of_take 3 (by decide) (by decide) (by decide)

/-- What the rule holds names exactly what was appended: the command was run on the given
specification; if it succeeded (status 0), the rule holds the specification, and deleting what it
holds names it; if it did not, nothing was appended and the rule holds what it held before. -/
structure NamesAppended (system : List UInt8 → ℤ) (spec : List UInt8) (set : RuleSet)
    (before after : Option (List UInt8)) : Prop where
  issued : set.issued = some (appendCommand spec)
  appended : system (appendCommand spec) = 0 →
    after = some spec ∧ (natRuleDel system after).2 = some (deleteCommand spec)
  refused : system (appendCommand spec) ≠ 0 → after = before

theorem ruleSet_issued (system : List UInt8 → ℤ) (x : List UInt8) :
    (ruleSet system (some x)).issued = some (appendCommand x) := by
  unfold ruleSet
  dsimp only
  split_ifs <;> rfl

theorem ruleSet_recorded (system : List UInt8 → ℤ) (x : List UInt8) :
    (ruleSet system (some x)).recorded =
      if 0 < system (appendCommand x) then some x else none := by
  unfold ruleSet
  dsimp only
  split_ifs <;> rfl

/-- Only the positive status of a command that has failed makes a record. -/
theorem namesAppended_iff {system : List UInt8 → ℤ} {before : Option (List UInt8)} :
    NamesAppended system x (ruleSet system (some x)) before
        ((ruleSet system (some x)).recorded.or before) ↔
      system (appendCommand x) < 0 ∨ before = some x := by
  rw [ruleSet_recorded]
  constructor
  · rintro ⟨-, appended, refused⟩
    rcases lt_trichotomy (system (appendCommand x)) 0 with negative | zero | positive
    · exact .inl negative
    · have held := (appended zero).1
      rw [zero, if_neg (lt_irrefl 0), Option.none_or] at held
      exact .inr held
    · have held := refused positive.ne'
      rw [if_pos positive, Option.some_or] at held
      exact .inr held.symm
  · intro cond
    refine ⟨ruleSet_issued system x, fun zero => ?_, fun nonzero => ?_⟩
    · obtain rfl := cond.resolve_left (by omega)
      rw [zero, if_neg (lt_irrefl 0), Option.none_or]
      exact ⟨rfl, rfl⟩
    · split_ifs with positive
      · obtain rfl := cond.resolve_left (by omega)
        rfl
      · exact Option.none_or

theorem dnatRuleSet_spec (system : List UInt8 → ℤ) (made : dnatMakeCmd calloc d = some x) :
    (dnatRuleSet system calloc (some d)).1 = ruleSet system (some x) ∧
      (dnatRuleSet system calloc (some d)).2.bind DnatRule.cmd =
        (ruleSet system (some x)).recorded.or d.cmd := by
  unfold dnatRuleSet
  dsimp only
  rw [made]
  cases (ruleSet system (some x)).recorded <;> exact ⟨rfl, rfl⟩

theorem snatRuleSet_spec (system : List UInt8 → ℤ) (made : snatMakeCmd calloc r = some y) :
    (snatRuleSet system calloc (some r)).1 = ruleSet system (some y) ∧
      (snatRuleSet system calloc (some r)).2.bind SnatRule.cmd =
        (ruleSet system (some y)).recorded.or r.cmd := by
  unfold snatRuleSet
  dsimp only
  rw [made]
  cases (ruleSet system (some y)).recorded <;> exact ⟨rfl, rfl⟩

end Identify

/-- **A specification identifies its rule**: two destination rules, two source rules, and one of
each. But what a rule holds afterwards, and what is named when it is deleted, is the rule that was
appended if and only if the command could not be run, so that nothing was appended, or the rule
held the same specification before. -/
theorem specs_identify {d d' : DnatRule} {r r' : SnatRule}
    {dcalloc dcalloc' rcalloc rcalloc' : Bool}
    {x x' y y' : List UInt8} (known : d.Known) (known' : d'.Known)
    (made : dnatMakeCmd dcalloc d = some x) (made' : dnatMakeCmd dcalloc' d' = some x')
    (accepted : snatMakeCmd rcalloc r = some y) (accepted' : snatMakeCmd rcalloc' r' = some y') :
    (x = x' ↔ d.proto = d'.proto ∧ d.dport = d'.dport ∧ d.addr = d'.addr ∧ d.cport = d'.cport) ∧
      (y = y' ↔ r.addr = r'.addr ∧ r.prefixlen = r'.prefixlen ∧ r.interface = r'.interface) ∧
      x ≠ y ∧
      ∀ system : List UInt8 → ℤ,
        (NamesAppended system x (dnatRuleSet system dcalloc (some d)).1 d.cmd
            ((dnatRuleSet system dcalloc (some d)).2.bind DnatRule.cmd) ↔
          system (appendCommand x) < 0 ∨ d.cmd = some x) ∧
        (NamesAppended system y (snatRuleSet system rcalloc (some r)).1 r.cmd
            ((snatRuleSet system rcalloc (some r)).2.bind SnatRule.cmd) ↔
          system (appendCommand y) < 0 ∨ r.cmd = some y) := by
  refine ⟨⟨?_, ?_⟩, ⟨?_, ?_⟩, dnatMakeCmd_ne_snatMakeCmd known made accepted, fun system => ?_⟩
  · rintro rfl
    exact dnatMakeCmd_inj known known' made made'
  · rintro ⟨proto, dport, addr, cport⟩
    exact dnatMakeCmd_congr proto dport addr cport made made'
  · rintro rfl
    exact snatMakeCmd_inj accepted accepted'
  · rintro ⟨addr, len, interface⟩
    exact snatMakeCmd_congr addr len interface accepted accepted'
  · obtain ⟨set, cmd⟩ := dnatRuleSet_spec system made
    obtain ⟨set', cmd'⟩ := snatRuleSet_spec system accepted
    rw [set, cmd, set', cmd']
    exact ⟨namesAppended_iff, namesAppended_iff⟩

/-- The address 172.16.0.2. -/
def guest : InAddr := ⟨172, 16, 0, 2⟩

/-- Port 80 over TCP, and over UDP. -/
def webRule (proto : UInt32) : DnatRule :=
  { proto, dport := 80, addr := guest, cport := 8080, cmd := none, cmdLen := 0 }

/-- The guest's network behind an interface. -/
def guestRule (interface : CString) : SnatRule :=
  { interface := some interface, prefixlen := 24, addr := guest, cmd := none, cmdLen := 0 }

/-- The name `eth0`. -/
def eth0 : CString := ⟨[0x65, 0x74, 0x68, 0x30], by decide⟩

/-- Different protocols have different specifications; and a command that could not be run leaves
both rules as they were, with nothing to delete. -/
theorem specs_identify_protocols :
    dnatMakeCmd true (webRule protoTcp) ≠ dnatMakeCmd true (webRule protoUdp) ∧
      ∃ x y, dnatMakeCmd true (webRule protoTcp) = some x ∧
        snatMakeCmd true (guestRule eth0) = some y ∧
        NamesAppended (fun _ => -1) x (dnatRuleSet (fun _ => -1) true (some (webRule protoTcp))).1
          none ((dnatRuleSet (fun _ => -1) true (some (webRule protoTcp))).2.bind DnatRule.cmd) ∧
        NamesAppended (fun _ => -1) y (snatRuleSet (fun _ => -1) true (some (guestRule eth0))).1
          none ((snatRuleSet (fun _ => -1) true (some (guestRule eth0))).2.bind SnatRule.cmd) := by
  obtain ⟨protocols, -, -, records⟩ := specs_identify (.inl rfl) (.inr rfl)
    (show dnatMakeCmd true (webRule protoTcp) = some _ from rfl)
    (show dnatMakeCmd true (webRule protoUdp) = some _ from rfl)
    (show snatMakeCmd true (guestRule eth0) = some _ from rfl)
    (show snatMakeCmd true (guestRule eth0) = some _ from rfl)
  obtain ⟨dnat, snat⟩ := records fun _ => -1
  refine ⟨fun same => ?_, _, _, rfl, rfl, dnat.mpr (.inl (by decide)), snat.mpr (.inl (by decide))⟩
  exact absurd (protocols.mp (Option.some.inj same)).1 (by decide)

/-- A rule that was appended is not recorded: the call reports a failure, the rule holds no
command, and deleting it runs nothing. A rule that `iptables` refused is recorded. -/
theorem appended_rule_not_recorded :
    (dnatRuleSet (fun _ => 0) true (some (webRule protoTcp))).1.issued.isSome ∧
      (dnatRuleSet (fun _ => 0) true (some (webRule protoTcp))).1.ret = -1 ∧
      (dnatRuleSet (fun _ => 0) true (some (webRule protoTcp))).2.bind DnatRule.cmd = none ∧
      natRuleDel (fun _ => 0)
        ((dnatRuleSet (fun _ => 0) true (some (webRule protoTcp))).2.bind DnatRule.cmd) =
          (-1, none) ∧
      ((dnatRuleSet (fun _ => 256) true (some (webRule protoTcp))).2.bind DnatRule.cmd).isSome :=
  ⟨rfl, rfl, rfl, rfl, rfl⟩

/-! ### Sizes -/

/-- `DEFAULT_CMD_SIZE`. -/
def defaultCmdSize : ℕ := 128

/-- A text and its terminator fit in a buffer of `DEFAULT_CMD_SIZE` bytes. -/
def FitsBuffer (txt : List UInt8) : Prop := txt.length + 1 ≤ defaultCmdSize

/-- The buffers that a specification passes through: the one that holds it, the command that
appends the rule and the command that deletes it. -/
structure CommandsFit (spec : List UInt8) : Prop where
  spec_fits : FitsBuffer spec
  append_fits : FitsBuffer (appendCommand spec)
  delete_fits : FitsBuffer (deleteCommand spec)

section Sizes

variable {d : DnatRule} {r : SnatRule} {calloc : Bool} {spec x y : List UInt8}

/-- The commands are nineteen characters longer than the specification. -/
theorem commandsFit_iff_length : CommandsFit spec ↔ spec.length ≤ 108 := by
  have append_length : (appendCommand spec).length = 19 + spec.length := by
    rw [appendCommand, List.length_append]
    rfl
  have delete_length : (deleteCommand spec).length = 19 + spec.length := by
    rw [deleteCommand, List.length_append]
    rfl
  constructor
  · intro fits
    have room := fits.append_fits
    rw [FitsBuffer, append_length, defaultCmdSize] at room
    omega
  · intro short
    refine ⟨?_, ?_, ?_⟩
    · rw [FitsBuffer, defaultCmdSize]
      omega
    · rw [FitsBuffer, append_length, defaultCmdSize]
      omega
    · rw [FitsBuffer, delete_length, defaultCmdSize]
      omega

theorem inetNtoa_length_le (addr : InAddr) : (inetNtoa addr).length ≤ 15 := by
  have byte (n : UInt8) : (decimalNat n.toNat).length ≤ 3 :=
    decimalNat_length_le (by have := n.toNat_lt; omega) (by decide)
  have a := byte addr.a
  have b := byte addr.b
  have c := byte addr.c
  have d := byte addr.d
  simp only [inetNtoa, List.length_append, List.length_cons]
  omega

theorem decimal_toInt_length_le (n : Int32) : (decimal n.toInt).length ≤ 11 :=
  decimal_length_le n.le_toInt n.toInt_lt

/-- The longest destination rule has 92 characters. -/
theorem dnatMakeCmd_length_le (made : dnatMakeCmd calloc d = some x) : x.length ≤ 92 := by
  have dport := decimal_toInt_length_le d.dport
  have cport := decimal_toInt_length_le d.cport
  have addr := inetNtoa_length_le d.addr
  by_cases tcp : d.proto = protoTcp
  · have head : (ascii " PREROUTING -p tcp --dport ").length = 27 := rfl
    have middle : (0x20 :: ascii "-j DNAT --to-destination ").length = 26 := rfl
    have colon : (ascii ":").length = 1 := rfl
    rw [dnatMakeCmd_tcp tcp made]
    simp only [List.length_append, head, middle, colon]
    omega
  by_cases udp : d.proto = protoUdp
  · have head : (ascii " PREROUTING -p udp --dport ").length = 27 := rfl
    have middle : (0x20 :: ascii " -j DNAT --to-destination ").length = 27 := rfl
    have colon : (ascii ":").length = 1 := rfl
    rw [dnatMakeCmd_udp udp made]
    simp only [List.length_append, head, middle, colon]
    omega
  · -- Any other protocol leaves the buffer empty.
    unfold dnatMakeCmd at made
    rw [if_neg tcp, if_neg udp] at made
    split_ifs at made
    cases made
    decide

theorem snatMakeCmd_length {interface : CString} (given : r.interface = some interface)
    (made : snatMakeCmd calloc r = some y) :
    y.length = 35 + (inetNtoa r.addr).length + (decimal r.prefixlen.toInt).length +
      interface.val.length := by
  have head : (ascii " POSTROUTING -s ").length = 16 := rfl
  have slash : (ascii "/").length = 1 := rfl
  have middle : (0x20 :: ascii "-o ").length = 4 := rfl
  have tail : (ascii " -j MASQUERADE").length = 14 := rfl
  obtain ⟨interface', given', -, -, text⟩ := snatMakeCmd_some made
  obtain rfl : interface = interface' := Option.some.inj (given.symm.trans given')
  rw [text]
  simp only [List.length_append, head, slash, middle, tail]
  omega

end Sizes

/-- **Everything fits in its buffer exactly if the interface name is short enough**: together
with the address and the number behind it, at most 73 characters. Destination rules always
fit. -/
theorem commandsFit_iff {d : DnatRule} {r : SnatRule} {interface : CString}
    {dcalloc rcalloc : Bool}
    {x y : List UInt8} (made : dnatMakeCmd dcalloc d = some x)
    (given : r.interface = some interface) (accepted : snatMakeCmd rcalloc r = some y) :
    CommandsFit x ∧ CommandsFit y ↔ (inetNtoa r.addr).length +
      (decimal r.prefixlen.toInt).length + interface.val.length ≤ 73 := by
  have short := dnatMakeCmd_length_le made
  have length := snatMakeCmd_length given accepted
  rw [commandsFit_iff_length, commandsFit_iff_length]
  omega

theorem commandsFit_iff_eth0 :
    ∃ x y, dnatMakeCmd true (webRule protoTcp) = some x ∧
      snatMakeCmd true (guestRule eth0) = some y ∧ CommandsFit x ∧ CommandsFit y := by
  have addr := inetNtoa_length_le (guestRule eth0).addr
  have len := decimal_toInt_length_le (guestRule eth0).prefixlen
  have name : eth0.val.length = 4 := rfl
  exact ⟨_, _, rfl, rfl, (commandsFit_iff
    (show dnatMakeCmd true (webRule protoTcp) = some _ from rfl)
    (show (guestRule eth0).interface = some eth0 from rfl)
    (show snatMakeCmd true (guestRule eth0) = some _ from rfl)).mpr (by omega)⟩

/-- A name of 100 characters. -/
def longName : CString := ⟨List.replicate 100 0x61, by decide⟩

theorem longName_overflows :
    ∃ y, snatMakeCmd true (guestRule longName) = some y ∧ ¬ CommandsFit y ∧ ¬ FitsBuffer y := by
  have length := snatMakeCmd_length (show (guestRule longName).interface = some longName from rfl)
    (show snatMakeCmd true (guestRule longName) = some _ from rfl)
  have name : longName.val.length = 100 := by decide
  refine ⟨_, rfl, fun fits => ?_, fun fits => ?_⟩
  · have short := commandsFit_iff_length.mp fits
    omega
  · rw [FitsBuffer, defaultCmdSize] at fits
    omega

end LinuxProgram.NetworkCode
