import LinuxProgram.Base.Iteration
import LinuxProgram.Base.KeywordTables
import LinuxProgram.Base.Loops

/-!
# Adding and deleting routes

`network/route.c` is a `route` command: it reads its arguments by tables of keywords
and passes a routing entry to the kernel. Options may follow the target in any order;
`kw_lookup` recognises them, together with the argument that some of them take.

The arguments are a zipper: `args[-1]` is the last one that was passed. Name
resolution, number parsing and `getopt32` are functions of the C library and of
busybox, and parameters here. Functions that do not return end with an `Exit`.

The loop of `INET_setroute` goes on whatever `kw_lookup` has found. At a word that is
no keyword nothing moves, and the loop never ends.

## Main definitions

* `kwLookup`, `inetSetroute`, `inet6Setroute` — the functions of the source
* `options`, `applyOption` — what the arguments mean, word by word

## Main results

* `inetSetroute_never_returns` — exactly the arguments with an unknown word hang
* `inetSetroute_genmask` — the netmask of a request does not depend on the arguments
* `inet6Setroute_returns` — the loop for IPv6 always ends
-/

namespace LinuxProgram.Route

open Base

/-- An argument. -/
abbrev Word := List UInt8

/-- How the program ends other than by returning. -/
inductive Exit
  /-- `bb_show_usage`. -/
  | usage
  /-- `bb_error_msg_and_die`. -/
  | die (message : List UInt8)
  /-- A function of the library has died, with a message of its own. -/
  | library
  deriving DecidableEq, Repr

/-- The arguments, seen from where `args` points to. -/
structure Args where
  /-- What has been passed, the last one first. -/
  before : List Word
  rest : List Word
  deriving DecidableEq, Repr

/-- `args[-1]`. -/
def Args.last (args : Args) : Word := args.before.headD []

/-! ### Keywords -/

def rtfUp : UInt16 := 0x0001
def rtfGateway : UInt16 := 0x0002
def rtfHost : UInt16 := 0x0004
def rtfReinstate : UInt16 := 0x0008
def rtfDynamic : UInt16 := 0x0010
def rtfModified : UInt16 := 0x0020
def rtfReject : UInt16 := 0x0200

/-- `NET_FLAG`. -/
def netFlag : ℕ := 1

/-- `HOST_FLAG`. -/
def hostFlag : ℕ := 2

/-- `KW_TAKES_ARG`. -/
def kwTakesArg : ℕ := 0o20

/-- `KW_IPVx_METRIC`. -/
def kwMetric : ℕ := 0o20

/-- `KW_IPVx_GATEWAY`. -/
def kwGateway : ℕ := 0o22

/-- `KW_IPVx_DEVICE`. -/
def kwDevice : ℕ := 0o26

/-- `KW_IPVx_FLAG_ONLY`. -/
def kwFlagOnly : ℕ := 0o40

/-- `KW_IPVx_MOD`. -/
def kwMod : ℕ := 0o41

/-- `KW_IPVx_DYN`. -/
def kwDyn : ℕ := 0o42

/-- `tbl_hash_net_host`, with the terminator of the string. -/
def tblHashNetHost : List UInt8 :=
  [0o7, 0o1] ++ ascii "#net" ++ [0] ++ [0o7, 0o2] ++ ascii "#host" ++ [0]

/-- `tbl_ipvx`. -/
def tblIpvx : List UInt8 :=
  [0o11, 0o20] ++ ascii "metric" ++ [0] ++ [0o12, 0o21] ++ ascii "netmask" ++ [0] ++
  [0o5, 0o22] ++ ascii "gw" ++ [0] ++ [0o12, 0o22] ++ ascii "gateway" ++ [0] ++
  [0o6, 0o23] ++ ascii "mss" ++ [0] ++ [0o11, 0o24] ++ ascii "window" ++ [0] ++
  [0o7, 0o25] ++ ascii "irtt" ++ [0] ++ [0o6, 0o26] ++ ascii "dev" ++ [0] ++
  [0o11, 0o26] ++ ascii "device" ++ [0] ++ [0o11, 0o40] ++ ascii "reject" ++ [0] ++
  [0o6, 0o41] ++ ascii "mod" ++ [0] ++ [0o6, 0o42] ++ ascii "dyn" ++ [0] ++
  [0o13, 0o43] ++ ascii "reinstate" ++ [0]

/-- `flags_ipvx`. -/
def flagsIpvx (i : ℕ) : UInt16 := [rtfReject, rtfModified, rtfDynamic, rtfReinstate].getD i 0

/-- `kw_lookup`. A word of the table is passed, and its argument too; any other word is left
where it is. -/
def kwLookup (table : List UInt8) (args : Args) : Except Exit (ℕ × Args) :=
  match args.rest with
  | [] => .ok (0, args)
  | word :: rest =>
    match walk table.length table word with
    | none => .ok (0, args)
    | some code =>
      if code.toNat &&& kwTakesArg ≠ 0 then
        match rest with
        | [] => .error .usage
        | arg :: rest => .ok (code.toNat, { before := arg :: word :: args.before, rest })
      else .ok (code.toNat, { before := word :: args.before, rest })

/-! ### IPv4 -/

/-- The fields of `struct rtentry` that the program sets. Addresses are in network order. -/
structure RtEntry where
  dst : UInt32
  gateway : UInt32
  genmask : UInt32
  flags : UInt16
  deriving DecidableEq, Repr

/-- `RTACTION_ADD` and `RTACTION_DEL`. -/
inductive Action
  | add | del
  deriving DecidableEq, Repr

/-- `SIOCADDRT` and `SIOCDELRT`, with the entry. -/
structure Request (ρ : Type) where
  action : Action
  entry : ρ
  deriving DecidableEq, Repr

/-- `INET_resolve`: negative if the name has no address, 1 for a network, and the address. -/
abbrev Resolve := Word → ℕ → ℤ × UInt32

/-- `ntohl` on a little-endian machine. -/
def ntohl (n : UInt32) : UInt32 :=
  let byte (i : UInt32) : UInt32 := (n >>> i) &&& (0xFF : UInt32)
  (byte 0 <<< 24) ||| (byte 8 <<< 16) ||| (byte 16 <<< 8) ||| byte 24

/-- What `%.8x` prints. -/
def hex8 (n : UInt32) : List UInt8 :=
  (List.range 8).map fun i =>
    let d := (n.toNat / 16 ^ (7 - i)) % 16
    UInt8.ofNat (if d < 10 then 0x30 + d else 0x61 + (d - 10))

/-- The state of a loop over options: the arguments and what the options have set. -/
structure Setting (σ : Type) where
  args : Args
  st : σ
  deriving DecidableEq, Repr

section Inet

variable (resolve : Resolve)

/-- The target of the route. `-net` and `-host` override what the name resolves to. -/
def inetTarget (xflag : ℕ) (args : Args) : Except Exit (Setting RtEntry) :=
  match args.rest with
  | [] => .error .usage
  | target :: rest =>
    let args : Args := { before := target :: args.before, rest }
    let (isnet, dst) := resolve target (xflag &&& hostFlag)
    if isnet < 0 then .error (.die (ascii "resolving " ++ target))
    else
      let isnet : ℤ := if xflag ≠ 0 then (xflag &&& netFlag : ℕ) else isnet
      let flags := if isnet ≠ 0 then rtfUp else rtfUp ||| rtfHost
      .ok { args, st := { dst, gateway := 0, genmask := 0, flags } }

/-- `INET_setroute` up to its loop. -/
def inetBegin (args : Args) : Except Exit (Setting RtEntry) := do
  let (xflag, args) ← kwLookup tblHashNetHost args
  inetTarget resolve xflag args

/-- One round of the loop of `INET_setroute`. -/
def inetRound (s : Setting RtEntry) : Setting RtEntry ⊕ Except Exit RtEntry :=
  match s.args.rest with
  | [] => .inr (.ok s.st)
  | _ :: _ =>
    match kwLookup tblIpvx s.args with
    | .error e => .inr (.error e)
    | .ok (k, args) =>
      let rt := s.st
      if k &&& kwFlagOnly ≠ 0 then
        .inl { args, st := { rt with flags := rt.flags ||| flagsIpvx (k &&& 3) } }
      else if k = kwGateway then
        if rt.flags &&& rtfGateway ≠ 0 then .inr (.error .usage)
        else
          let (isnet, gateway) := resolve args.last 1
          if isnet ≠ 0 then
            if isnet < 0 then .inr (.error (.die (ascii "resolving " ++ args.last)))
            else .inr (.error (.die (ascii "gateway " ++ args.last ++ ascii " is a NETWORK")))
          else .inl { args, st := { rt with gateway, flags := rt.flags ||| rtfGateway } }
      -- Any other keyword, and a word that is none: nothing is done.
      else .inl { args, st := rt }

/-- `INET_setroute` after its loop. -/
def inetFinish (action : Action) (rt : RtEntry) : Except Exit (Request RtEntry) := do
  if rt.genmask ≠ 0 then
    let mask := ~~~ ntohl rt.genmask
    if rt.flags &&& rtfHost ≠ 0 ∧ mask ≠ 0xFFFFFFFF then
      throw (.die (ascii "netmask " ++ hex8 mask ++ ascii " and host route conflict"))
    if mask &&& (mask + 1) ≠ 0 then
      throw (.die (ascii "bogus netmask default"))
    if rt.dst &&& ~~~ rt.genmask ≠ 0 then
      throw (.die (ascii "netmask and route address conflict"))
  let genmask := if action = .add ∧ rt.flags &&& rtfHost ≠ 0 then 0xFFFFFFFF else rt.genmask
  return { action, entry := { rt with genmask } }

/-- `INET_setroute`, with at most `fuel` rounds of its loop. -/
def inetSetroute (fuel : ℕ) (action : Action) (args : Args) :
    Option (Except Exit (Request RtEntry)) :=
  match inetBegin resolve args with
  | .error e => some (.error e)
  | .ok s => (iterate (inetRound resolve) fuel s).map fun r => r >>= inetFinish action

end Inet

/-! ### IPv6 -/

/-- The fields of `struct in6_rtmsg` that the program sets. -/
structure In6Rtmsg where
  dst : List UInt8
  gateway : List UInt8
  dstLen : ℕ
  flags : UInt16
  metric : ℕ
  ifindex : ℤ
  deriving DecidableEq, Repr

/-- Functions of the C library, of busybox and of the kernel. Where they give nothing, they do
not return. -/
structure Env where
  /-- `INET6_resolve`: negative if the name has no address, and the address. -/
  resolve6 : Word → ℤ × List UInt8
  xatoul : Word → Option ℕ
  /-- `xatoul_range(cp + 1, 0, 128)`. -/
  prefixLen : Word → Option ℕ
  /-- `strncpy_IFNAMSIZ`, which cuts the name to the room there is for it, and `SIOCGIFINDEX`. -/
  ifindex : Word → Option ℤ

/-- A call of one of these functions. -/
def orDie {α : Type} : Option α → Except Exit α
  | none => .error .library
  | some a => .ok a

section Inet6

variable (env : Env)

/-- The target of the route and the length of its prefix. -/
def inet6Target (target : Word) : Except Exit (List UInt8 × ℕ) :=
  if target = ascii "default" then .ok (List.replicate 16 0, 0)
  else do
    let name := target.takeWhile (· ≠ 0x2F)
    let len ← if 0x2F ∈ target then
        orDie (env.prefixLen (target.drop (name.length + 1)))
      else .ok 128
    let (failed, addr) := env.resolve6 name
    if failed < 0 then .error (.die (ascii "resolving " ++ name))
    else .ok (addr, len)

/-- The entry that the loop of `INET6_setroute` begins with. -/
def inet6Entry (dst : List UInt8) (dstLen : ℕ) : In6Rtmsg where
  dst := dst
  gateway := List.replicate 16 0
  dstLen := dstLen
  flags := if dstLen = 128 then rtfUp ||| rtfHost else rtfUp
  metric := 1
  ifindex := 0

/-- The entry, and `devname` if it has been set. -/
abbrev Entry6 := In6Rtmsg × Option Word

/-- One round of the loop of `INET6_setroute`. -/
def inet6Round (s : Setting Entry6) : Setting Entry6 ⊕ Except Exit Entry6 :=
  match s.args.rest with
  | [] => .inr (.ok s.st)
  | _ :: _ =>
    match kwLookup tblIpvx s.args with
    | .error e => .inr (.error e)
    | .ok (k, args) =>
      let (rt, devname) := s.st
      if k = kwMod ∨ k = kwDyn then
        .inl { args, st := ({ rt with flags := rt.flags ||| flagsIpvx (k &&& 3) }, devname) }
      else if k = kwMetric then
        match env.xatoul args.last with
        | none => .inr (.error .library)
        | some n => .inl { args, st := ({ rt with metric := n % 2 ^ 32 }, devname) }
      else if k = kwGateway then
        if rt.flags &&& rtfGateway ≠ 0 then .inr (.error .usage)
        else
          let (failed, gateway) := env.resolve6 args.last
          if failed < 0 then .inr (.error (.die (ascii "resolving " ++ args.last)))
          else
            .inl { args, st := ({ rt with gateway, flags := rt.flags ||| rtfGateway }, devname) }
      else if devname = none ∧ k = kwDevice then .inl { args, st := (rt, some args.last) }
      else if devname = none ∧ k = 0 then
        -- `!*++args`: a word that is no keyword names the device if it is the last one.
        match args.rest with
        | [word] => .inl { args := ⟨word :: args.before, []⟩, st := (rt, some word) }
        | _ => .inr (.error .usage)
      else .inr (.error .usage)

/-- `INET6_setroute` after its loop. -/
def inet6Finish (action : Action) (rt : In6Rtmsg) (devname : Option Word) :
    Except Exit (Request In6Rtmsg) := do
  match devname with
  | none => return { action, entry := { rt with ifindex := 0 } }
  | some name =>
    let ifindex ← orDie (env.ifindex name)
    return { action, entry := { rt with ifindex } }

/-- `INET6_setroute` on a target and options, with at most `fuel` rounds of its loop. -/
def inet6Setroute (fuel : ℕ) (action : Action) (target : Word) (args : Args) :
    Option (Except Exit (Request In6Rtmsg)) :=
  match inet6Target env target with
  | .error e => some (.error e)
  | .ok (dst, len) =>
    (iterate (inet6Round env) fuel ⟨args, (inet6Entry dst len, none)⟩).map fun r =>
      r >>= fun (rt, devname) => inet6Finish env action rt devname

end Inet6

/-! ### What the options mean -/

/-- The entries of `tbl_ipvx`. -/
def ipvxKeywords : List Keyword :=
  [⟨0o20, ascii "metric"⟩, ⟨0o21, ascii "netmask"⟩, ⟨0o22, ascii "gw"⟩, ⟨0o22, ascii "gateway"⟩,
    ⟨0o23, ascii "mss"⟩, ⟨0o24, ascii "window"⟩, ⟨0o25, ascii "irtt"⟩, ⟨0o26, ascii "dev"⟩,
    ⟨0o26, ascii "device"⟩, ⟨0o40, ascii "reject"⟩, ⟨0o41, ascii "mod"⟩, ⟨0o42, ascii "dyn"⟩,
    ⟨0o43, ascii "reinstate"⟩]

/-- The code of an option. -/
def optionCode (word : Word) : Option ℕ :=
  (ipvxKeywords.find? (·.word = word)).map fun e => e.code.toNat

/-- An option with its argument. An option that takes none stands for its own. -/
structure Opt where
  code : ℕ
  arg : Word
  deriving DecidableEq, Repr

/-- Where the options end. -/
inductive Ending
  | done
  /-- An argument is missing. -/
  | missing
  /-- A word that is no option, and what follows it. -/
  | unknown (word : Word) (rest : List Word)
  deriving DecidableEq, Repr

/-- The options that the arguments begin with. -/
def options : List Word → List Opt × Ending
  | [] => ([], .done)
  | word :: rest =>
    match optionCode word with
    | none => ([], .unknown word rest)
    | some code =>
      if code &&& kwTakesArg ≠ 0 then
        match rest with
        | [] => ([], .missing)
        | arg :: rest => (⟨code, arg⟩ :: (options rest).1, (options rest).2)
      else (⟨code, word⟩ :: (options rest).1, (options rest).2)

/-- What an option does to an IPv4 entry. -/
def applyOption (resolve : Resolve) (rt : RtEntry) (o : Opt) : Except Exit RtEntry :=
  if o.code &&& kwFlagOnly ≠ 0 then
    .ok { rt with flags := rt.flags ||| flagsIpvx (o.code &&& 3) }
  else if o.code = kwGateway then
    if rt.flags &&& rtfGateway ≠ 0 then .error .usage
    else if (resolve o.arg 1).1 < 0 then .error (.die (ascii "resolving " ++ o.arg))
    else if (resolve o.arg 1).1 ≠ 0 then
      .error (.die (ascii "gateway " ++ o.arg ++ ascii " is a NETWORK"))
    else .ok { rt with gateway := (resolve o.arg 1).2, flags := rt.flags ||| rtfGateway }
  else .ok rt

/-- What an option does to an IPv6 entry and to the device. -/
def applyOption6 (env : Env) (st : Entry6) (o : Opt) : Except Exit Entry6 :=
  if o.code = kwMod ∨ o.code = kwDyn then
    .ok ({ st.1 with flags := st.1.flags ||| flagsIpvx (o.code &&& 3) }, st.2)
  else if o.code = kwMetric then
    (orDie (env.xatoul o.arg)).map fun n => ({ st.1 with metric := n % 2 ^ 32 }, st.2)
  else if o.code = kwGateway then
    if st.1.flags &&& rtfGateway ≠ 0 then .error .usage
    else if (env.resolve6 o.arg).1 < 0 then .error (.die (ascii "resolving " ++ o.arg))
    else .ok ({ st.1 with
      gateway := (env.resolve6 o.arg).2, flags := st.1.flags ||| rtfGateway }, st.2)
  else if st.2 = none ∧ o.code = kwDevice then .ok (st.1, some o.arg)
  else .error .usage

/-- What the words after the target mean for an IPv6 entry. -/
def inet6Options (env : Env) (st : Entry6) (rest : List Word) : Except Exit Entry6 := do
  let st ← runEvents (applyOption6 env) st (options rest).1
  match (options rest).2 with
  | .done => return st
  | .missing => throw .usage
  -- The last word may be the name of the device.
  | .unknown word rest => if st.2 = none ∧ rest = [] then return (st.1, some word) else throw .usage

/-- What `INET6_setroute` is for: the request that target and options describe. -/
def inet6Meaning (env : Env) (action : Action) (target : Word) (rest : List Word) :
    Except Exit (Request In6Rtmsg) := do
  let (dst, len) ← inet6Target env target
  let (rt, devname) ← inet6Options env (inet6Entry dst len, none) rest
  inet6Finish env action rt devname

section Lookup

variable {before rest : List Word} {word arg : Word} {code : ℕ}

theorem tblIpvx_eq : tblIpvx = pack ipvxKeywords := by decide

theorem walk_tblIpvx (word : Word) : (walk tblIpvx.length tblIpvx word).map UInt8.toNat =
    optionCode word := by
  have found := @walk_pack ipvxKeywords (by decide) (by decide) word tblIpvx.length (by decide)
  rw [← tblIpvx_eq] at found
  rw [found, optionCode, Option.map_map]
  rfl

theorem walk_of_optionCode (known : optionCode word = some code) :
    ∃ byte, walk tblIpvx.length tblIpvx word = some byte ∧ byte.toNat = code := by
  rw [← walk_tblIpvx] at known
  exact Option.map_eq_some_iff.mp known

/-- No option has code 0, the answer of `kw_lookup` to any other word. -/
theorem optionCode_pos (known : optionCode word = some code) : code ≠ 0 := by
  obtain ⟨e, found, rfl⟩ := Option.map_eq_some_iff.mp known
  have codes : ∀ e ∈ ipvxKeywords, e.code.toNat ≠ 0 := by decide
  exact codes e (List.mem_of_find?_eq_some found)

theorem kwLookup_unknown (unknown : optionCode word = none) :
    kwLookup tblIpvx ⟨before, word :: rest⟩ = .ok (0, ⟨before, word :: rest⟩) := by
  rw [← walk_tblIpvx, Option.map_eq_none_iff] at unknown
  simp only [kwLookup, unknown]

theorem kwLookup_flag (known : optionCode word = some code) (alone : code &&& kwTakesArg = 0) :
    kwLookup tblIpvx ⟨before, word :: rest⟩ = .ok (code, ⟨word :: before, rest⟩) := by
  obtain ⟨byte, found, rfl⟩ := walk_of_optionCode known
  simp only [kwLookup, found, alone, ne_eq, not_true_eq_false, if_false]

theorem kwLookup_missing (known : optionCode word = some code)
    (takes : code &&& kwTakesArg ≠ 0) :
    kwLookup tblIpvx ⟨before, [word]⟩ = .error .usage := by
  obtain ⟨byte, found, rfl⟩ := walk_of_optionCode known
  simp only [kwLookup, found, if_pos takes]

theorem kwLookup_arg (known : optionCode word = some code) (takes : code &&& kwTakesArg ≠ 0) :
    kwLookup tblIpvx ⟨before, word :: arg :: rest⟩ =
      .ok (code, ⟨arg :: word :: before, rest⟩) := by
  obtain ⟨byte, found, rfl⟩ := walk_of_optionCode known
  simp only [kwLookup, found, if_pos takes]

end Lookup

/-! ### Loops over options -/

section OptionLoops

variable {σ : Type} {apply : σ → Opt → Except Exit σ}
  {unknown : σ → Word → List Word → Option (Except Exit σ)}
  {round : Setting σ → Setting σ ⊕ Except Exit σ}

/-- Going on with what an option gives, or ending with its error. -/
def goOn (args : Args) : Except Exit σ → Setting σ ⊕ Except Exit σ
  | .error e => .inr (.error e)
  | .ok st => .inl ⟨args, st⟩

/-- What becomes of a loop over options, when `unknown` is what becomes of it at a word that is
none. -/
def loopOutcome (apply : σ → Opt → Except Exit σ)
    (unknown : σ → Word → List Word → Option (Except Exit σ)) (st : σ) (rest : List Word) :
    Option (Except Exit σ) :=
  match runEvents apply st (options rest).1 with
  | .error e => some (.error e)
  | .ok st =>
    match (options rest).2 with
    | .done => some (.ok st)
    | .missing => some (.error .usage)
    | .unknown word rest => unknown st word rest

/-- A loop that looks words up in `tbl_ipvx` and applies the options they name. -/
structure OptionLoop (apply : σ → Opt → Except Exit σ)
    (unknown : σ → Word → List Word → Option (Except Exit σ))
    (round : Setting σ → Setting σ ⊕ Except Exit σ) : Prop where
  stop : ∀ before st, round ⟨⟨before, []⟩, st⟩ = .inr (.ok st)
  fail : ∀ args st e, args.rest ≠ [] → kwLookup tblIpvx args = .error e →
    round ⟨args, st⟩ = .inr (.error e)
  option : ∀ args args' st k, args.rest ≠ [] → kwLookup tblIpvx args = .ok (k, args') → k ≠ 0 →
    round ⟨args, st⟩ = goOn args' (apply st ⟨k, args'.last⟩)
  word : ∀ before rest w st, optionCode w = none →
    Outcome round ⟨⟨before, w :: rest⟩, st⟩ (unknown st w rest)

theorem loopOutcome_option {rest rest' : List Word} {o : Opt} (st : σ)
    (read : options rest = (o :: (options rest').1, (options rest').2)) :
    loopOutcome apply unknown st rest = match apply st o with
      | .error e => some (.error e)
      | .ok st => loopOutcome apply unknown st rest' := by
  rw [loopOutcome, read, runEvents_cons]
  cases apply st o <;> rfl

/-- A round that has recognised an option, and the rest of the loop. -/
theorem OptionLoop.goes_on (loop : OptionLoop apply unknown round)
    {before before' rest rest' : List Word} {w : Word} {o : Opt} (st : σ) (some_code : o.code ≠ 0)
    (looked : kwLookup tblIpvx ⟨before, w :: rest⟩ = .ok (o.code, ⟨o.arg :: before', rest'⟩))
    (read : options (w :: rest) = (o :: (options rest').1, (options rest').2))
    (behind : ∀ st, Outcome round ⟨⟨o.arg :: before', rest'⟩, st⟩
      (loopOutcome apply unknown st rest')) :
    Outcome round ⟨⟨before, w :: rest⟩, st⟩ (loopOutcome apply unknown st (w :: rest)) := by
  have next := loop.option _ _ st _ (List.cons_ne_nil w rest) looked some_code
  rw [loopOutcome_option st read]
  cases applied : apply st o with
  | error e => exact Ends.now (next.trans (congrArg (goOn _) applied))
  | ok st' => exact Outcome.later (next.trans (congrArg (goOn _) applied)) (behind st')

/-- The loop reads the options one by one. -/
theorem OptionLoop.outcome (loop : OptionLoop apply unknown round) (before rest : List Word)
    (st : σ) : Outcome round ⟨⟨before, rest⟩, st⟩ (loopOutcome apply unknown st rest) := by
  -- One case for each way in which `options` goes on.
  induction rest using options.induct generalizing before st with
  | case1 => exact Ends.now (loop.stop before st)
  | case2 word rest no_option =>
    have outcome : loopOutcome apply unknown st (word :: rest) = unknown st word rest := by
      simp only [loopOutcome, options, no_option, runEvents_nil]
    rw [outcome]
    exact loop.word before rest word st no_option
  | case3 word code known takes =>
    have outcome : loopOutcome apply unknown st [word] = some (.error .usage) := by
      simp only [loopOutcome, options, known, if_pos takes, runEvents_nil]
    rw [outcome]
    exact Ends.now (loop.fail _ st _ (List.cons_ne_nil word []) (kwLookup_missing known takes))
  | case4 word code known takes arg rest ih =>
    refine loop.goes_on (o := ⟨code, arg⟩) st (optionCode_pos known) (kwLookup_arg known takes) ?_
      fun st => ih _ st
    rw [options, known]
    exact if_pos takes
  | case5 word rest code known alone ih =>
    refine loop.goes_on (o := ⟨code, word⟩) st (optionCode_pos known)
      (kwLookup_flag known (not_not.mp alone)) ?_ fun st => ih _ st
    rw [options, known]
    exact if_neg alone

end OptionLoops

/-! ### The loop for IPv4 -/

section InetLoop

variable {resolve : Resolve} {rt : RtEntry}

/-- A round of the loop applies what `kw_lookup` has found. -/
theorem inetRound_eq {args args' : Args} {k : ℕ} (more : args.rest ≠ [])
    (looked : kwLookup tblIpvx args = .ok (k, args')) :
    inetRound resolve ⟨args, rt⟩ = goOn args' (applyOption resolve rt ⟨k, args'.last⟩) := by
  obtain ⟨word, rest, cons⟩ := List.exists_cons_of_ne_nil more
  simp only [inetRound, cons, looked, applyOption]
  split_ifs <;> first | rfl | omega

theorem applyOption_unknown (arg : Word) : applyOption resolve rt ⟨0, arg⟩ = .ok rt := by
  simp [applyOption, kwGateway]

/-- At a word that is no option the loop stays for ever. -/
theorem inetLoop : OptionLoop (applyOption resolve) (fun _ _ _ => none) (inetRound resolve) where
  stop _ _ := rfl
  fail args rt e more failed := by
    obtain ⟨word, rest, cons⟩ := List.exists_cons_of_ne_nil more
    simp only [inetRound, cons, failed]
  option _ _ _ _ more looked _ := inetRound_eq more looked
  word before rest w rt no_option := by
    apply Diverges.of_fixed
    rw [inetRound_eq (List.cons_ne_nil w rest) (kwLookup_unknown no_option), applyOption_unknown,
      goOn]

/-- `INET_setroute` never returns exactly if it comes to a word that is no option, after
options that it has accepted. -/
theorem inetSetroute_never_returns (resolve : Resolve) (action : Action) (args : Args) :
    (∀ fuel, inetSetroute resolve fuel action args = none) ↔
      ∃ s rt word rest, inetBegin resolve args = .ok s ∧
        runEvents (applyOption resolve) s.st (options s.args.rest).1 = .ok rt ∧
        (options s.args.rest).2 = .unknown word rest := by
  cases begun : inetBegin resolve args with
  | error e => simp [inetSetroute, begun]
  | ok s =>
    have unfolded : (∀ fuel, inetSetroute resolve fuel action args = none) ↔
        Diverges (inetRound resolve) s := by
      simp [inetSetroute, begun, Diverges]
    rw [unfolded, (inetLoop.outcome s.args.before s.args.rest s.st).diverges_iff, loopOutcome]
    cases applied : runEvents (applyOption resolve) s.st (options s.args.rest).1 with
    | error e => simp [applied]
    | ok rt => cases ending : (options s.args.rest).2 <;> simp [applied, ending]

/-- No option touches the netmask. -/
theorem applyOption_genmask {o : Opt} {rt' : RtEntry}
    (applied : applyOption resolve rt o = .ok rt') :
    rt'.genmask = rt.genmask := by
  unfold applyOption at applied
  split_ifs at applied <;> cases applied <;> rfl

/-- The errors of a target and of an option. -/
def IsOptionError (e : Exit) : Prop :=
  e = .usage ∨ (∃ name, e = .die (ascii "resolving " ++ name)) ∨
    ∃ name, e = .die (ascii "gateway " ++ name ++ ascii " is a NETWORK")

/-- A result with a property, or one of these errors. -/
def Gives {α : Type} (P : α → Prop) : Except Exit α → Prop
  | .ok a => P a
  | .error e => IsOptionError e

theorem Gives.bind {α β : Type} {P : α → Prop} {Q : β → Prop} {x : Except Exit α}
    {f : α → Except Exit β} (first : Gives P x) (rest : ∀ a, P a → Gives Q (f a)) :
    Gives Q (x >>= f) := by
  cases x with
  | error e => exact first
  | ok a => exact rest a first

theorem applyOption_error {o : Opt} {e : Exit} (failed : applyOption resolve rt o = .error e) :
    IsOptionError e := by
  unfold applyOption at failed
  split_ifs at failed <;> cases failed
  · exact .inl rfl
  · exact .inr (.inl ⟨_, rfl⟩)
  · exact .inr (.inr ⟨_, rfl⟩)

/-- The loop ends with the netmask it began with, or with an error of an option. -/
theorem inetOutcome_gives {rest : List Word} {r : Except Exit RtEntry}
    (outcome : loopOutcome (applyOption resolve) (fun _ _ _ => none) rt rest = some r) :
    Gives (fun rt' => rt'.genmask = rt.genmask) r := by
  unfold loopOutcome at outcome
  cases applied : runEvents (applyOption resolve) rt (options rest).1 with
  | error e =>
    obtain ⟨before, o, after, t, -, -, failed⟩ := runEvents_error applied
    rw [applied] at outcome
    cases outcome
    exact applyOption_error failed
  | ok rt' =>
    have kept : rt'.genmask = rt.genmask :=
      runEvents_invariant (fun t => t.genmask = rt.genmask)
        (fun _ _ _ step same => (applyOption_genmask step).trans same) applied rfl
    rw [applied] at outcome
    cases ending : (options rest).2 <;> rw [ending] at outcome <;> cases outcome
    · exact kept
    · exact .inl rfl

theorem kwLookup_gives (table : List UInt8) (args : Args) :
    Gives (fun _ => True) (kwLookup table args) := by
  unfold kwLookup
  cases args.rest with
  | nil => trivial
  | cons word rest =>
    dsimp only
    cases walk table.length table word with
    | none => trivial
    | some code =>
      dsimp only
      split_ifs
      · cases rest with
        | nil => exact .inl rfl
        | cons arg rest => trivial
      · trivial

theorem inetTarget_gives (xflag : ℕ) (args : Args) :
    Gives (fun s => s.st.genmask = 0) (inetTarget resolve xflag args) := by
  unfold inetTarget
  cases args.rest with
  | nil => exact .inl rfl
  | cons target rest =>
    dsimp only
    by_cases unresolved : (resolve target (xflag &&& hostFlag)).1 < 0
    · rw [if_pos unresolved]
      exact .inr (.inl ⟨_, rfl⟩)
    · rw [if_neg unresolved]
      rfl

theorem inetBegin_gives (args : Args) :
    Gives (fun s => s.st.genmask = 0) (inetBegin resolve args) :=
  (kwLookup_gives tblHashNetHost args).bind fun found _ => inetTarget_gives found.1 found.2

/-- Without a netmask there is nothing to check. -/
theorem inetFinish_of_genmask (action : Action) (unset : rt.genmask = 0) :
    inetFinish action rt = .ok { action, entry := { rt with
      genmask := if action = .add ∧ rt.flags &&& rtfHost ≠ 0 then 0xFFFFFFFF else 0 } } := by
  simp only [inetFinish, unset, ne_eq, not_true_eq_false, if_false]
  rfl

/-- The netmask of a request does not depend on the arguments: it covers all bits for the host
routes that are added, and none for any other route. The checks of the netmask never fail. -/
theorem inetSetroute_genmask {action : Action} {args : Args} {fuel : ℕ}
    {r : Except Exit (Request RtEntry)}
    (returned : inetSetroute resolve fuel action args = some r) :
    Gives (fun request => request.entry.genmask =
      if action = .add ∧ request.entry.flags &&& rtfHost ≠ 0 then 0xFFFFFFFF else 0) r := by
  have begun := @inetBegin_gives resolve args
  unfold inetSetroute at returned
  cases start : inetBegin resolve args with
  | error e =>
    rw [start] at begun returned
    cases returned
    exact begun
  | ok s =>
    rw [start] at begun returned
    obtain ⟨ended, ran, rfl⟩ := Option.map_eq_some_iff.mp returned
    have outcome := (inetLoop.outcome s.args.before s.args.rest s.st).of_ends ⟨fuel, ran⟩
    refine (inetOutcome_gives outcome).bind fun rt kept => ?_
    rw [inetFinish_of_genmask action (kept.trans begun)]
    rfl

/-- A network route with a netmask, and names that resolve to 10.0.0.0. -/
theorem netmask_of_network_route :
    ∃ request, inetSetroute (fun _ _ => (0, 10)) 4 .add ⟨[], [ascii "#net", ascii "10.0.0.0",
        ascii "netmask", ascii "255.0.0.0", ascii "gw", ascii "10.0.0.1"]⟩ = some (.ok request) ∧
      Gives (fun request => request.entry.genmask =
        if Action.add = .add ∧ request.entry.flags &&& rtfHost ≠ 0 then 0xFFFFFFFF else 0)
        (.ok request) := by
  have returned : inetSetroute (fun _ _ => (0, 10)) 4 .add ⟨[], [ascii "#net", ascii "10.0.0.0",
      ascii "netmask", ascii "255.0.0.0", ascii "gw", ascii "10.0.0.1"]⟩ =
      some (.ok { action := .add, entry := ⟨10, 10, 0, 3⟩ }) := by decide
  exact ⟨_, returned, inetSetroute_genmask returned⟩

end InetLoop

/-! ### The loop for IPv6 -/

section Inet6Loop

variable {env : Env} {st : Entry6}

/-- What becomes of the loop at a word that is no option. -/
def lastWord (st : Entry6) (word : Word) (rest : List Word) : Option (Except Exit Entry6) :=
  some (if st.2 = none ∧ rest = [] then .ok (st.1, some word) else .error .usage)

theorem inet6Loop : OptionLoop (applyOption6 env) lastWord (inet6Round env) where
  stop _ _ := rfl
  fail args st e more failed := by
    obtain ⟨word, rest, cons⟩ := List.exists_cons_of_ne_nil more
    simp only [inet6Round, cons, failed]
  option args args' st k more looked found := by
    obtain ⟨word, rest, cons⟩ := List.exists_cons_of_ne_nil more
    simp only [inet6Round, cons, looked, applyOption6, found, and_false, if_false]
    split_ifs <;> try rfl
    cases env.xatoul args'.last <;> rfl
  word before rest w st no_option := by
    have looked := @kwLookup_unknown before rest w no_option
    obtain ⟨rt, dev⟩ := st
    cases dev with
    | some name =>
      apply Ends.now
      simp [inet6Round, looked, kwMod, kwDyn, kwMetric, kwGateway]
    | none =>
      cases rest with
      | cons other rest =>
        apply Ends.now
        simp [inet6Round, looked, kwMod, kwDyn, kwMetric, kwGateway, kwDevice]
      | nil =>
        -- One more round, which finds that there is nothing left.
        have taken : inet6Round env ⟨⟨before, [w]⟩, (rt, none)⟩ =
            .inl ⟨⟨w :: before, []⟩, (rt, some w)⟩ := by
          simp [inet6Round, looked, kwMod, kwDyn, kwMetric, kwGateway, kwDevice]
        exact Ends.later taken (Ends.now rfl)

theorem loopOutcome_lastWord (st : Entry6) (rest : List Word) :
    loopOutcome (applyOption6 env) lastWord st rest = some (inet6Options env st rest) := by
  unfold loopOutcome inet6Options
  cases runEvents (applyOption6 env) st (options rest).1 with
  | error e => rfl
  | ok st =>
    change (match (options rest).2 with | .done => _ | .missing => _ | .unknown _ _ => _) =
      some (match (options rest).2 with | .done => _ | .missing => _ | .unknown _ _ => _)
    cases (options rest).2 with
    | done => rfl
    | missing => rfl
    | unknown word rest =>
      dsimp only [lastWord]
      split_ifs <;> rfl

/-- The loop for IPv6 always ends, and with the request that target and options describe. -/
theorem inet6Setroute_returns (env : Env) (action : Action) (target : Word) (args : Args) :
    ∃ fuel, inet6Setroute env fuel action target args =
      some (inet6Meaning env action target args.rest) := by
  unfold inet6Setroute inet6Meaning
  cases inet6Target env target with
  | error e => exact ⟨0, rfl⟩
  | ok found =>
    obtain ⟨dst, len⟩ := found
    have outcome := (@inet6Loop env).outcome args.before args.rest (inet6Entry dst len, none)
    rw [loopOutcome_lastWord] at outcome
    obtain ⟨fuel, ended⟩ := outcome
    refine ⟨fuel, ?_⟩
    dsimp only
    rw [ended]
    rfl

end Inet6Loop

end LinuxProgram.Route
