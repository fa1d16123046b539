import LinuxProgram.Base.Results
import LinuxProgram.Base.Text
import LinuxProgram.Netlink.Encoding
import LinuxProgram.NetworkCode.Transaction

/-!
# The requests of `network.c`

Five functions configure the network by one netlink transaction each: they open a socket,
build a request and hand it to `netlink_transaction`. All but one receive the
acknowledgement in a second message; `netdev_move_to_namespace` receives it in the request
itself.

Each function is split where it calls `netlink_transaction`. The first part ends with the
request and the answer message, or with what the function does instead. What the kernel
and the C library contribute is collected in `Env`.

## Main definitions

* `netdevSetFlag`, `netdevDeleteByName`, `netdevMoveToNamespace`, `networkVethCreate`,
  `ipAddrAdd` — the functions
* `vethBytes`, `addrBytes` — the requests for a pair of connected interfaces and for an address,
  as bytes

## Main results

* `call_returns_error` — the error code of the acknowledgement is what the function returns
* `networkVethCreate_bytes` — the request that `network_veth_create` sends
* `yields_addrAdd` — the request that `ip_addr_add` sends for an IPv4 address
-/

namespace LinuxProgram.NetworkCode

open Base Netlink

/-! ### Constants -/

/-- `EINVAL`. -/
def einval : ℤ := 22

/-- `EPROTONOSUPPORT`. -/
def eprotonosupport : ℤ := 93

/-- `AF_INET6`. -/
def afInet6 : ℤ := 10

/-- `IFF_UP`. -/
def iffUp : ℕ := 1

/-- `NLM_F_REQUEST`. -/
def nlmFRequest : ℕ := 1

/-- `NLM_F_ACK`. -/
def nlmFAck : ℕ := 4

/-- `NLM_F_EXCL`. -/
def nlmFExcl : ℕ := 0x200

/-- `NLM_F_CREATE`. -/
def nlmFCreate : ℕ := 0x400

/-- `RTM_NEWLINK`. -/
def rtmNewlink : ℕ := 16

/-- `RTM_DELLINK`. -/
def rtmDellink : ℕ := 17

/-- `RTM_NEWADDR`. -/
def rtmNewaddr : ℕ := 20

/-- `IFLA_LINKINFO`. -/
def iflaLinkinfo : ℕ := 18

/-- `IFLA_NET_NS_PID`. -/
def iflaNetNsPid : ℕ := 19

/-- `IFLA_INFO_KIND`. -/
def iflaInfoKind : ℕ := 1

/-- `IFLA_INFO_DATA`. -/
def iflaInfoData : ℕ := 2

/-- `VETH_INFO_PEER`. -/
def vethInfoPeer : ℕ := 1

/-- `IFA_BROADCAST`. -/
def ifaBroadcast : ℕ := 4

/-- The text `veth`. -/
def vethKind : List UInt8 := [0x76, 0x65, 0x74, 0x68]

/-! ### Surroundings -/

/-- What the calls outside this code do: `netlink_open`, the two allocations of each
message, `if_nametoindex`, and the two system calls of the transaction. -/
structure Env where
  netlinkOpen : ℤ
  nlmsg : Bool × Option Memory
  answer : Bool × Option Memory
  ifNametoindex : List UInt8 → ℕ
  send : Send
  recv : List Recv

/-- How a function ends: it returns, it follows a null pointer, or it waits for the
answer. -/
inductive Outcome
  | returned (value : ℤ)
  | crashed
  | waiting
  deriving DecidableEq

/-- `goto out` with the given `err`. -/
def fail {α : Type} (err : ℤ) : Except Outcome α := .error (.returned err)

/-- Fail when the condition holds. -/
def failIf (cond : Prop) [Decidable cond] (err : ℤ) : Except Outcome Unit :=
  if cond then fail err else .ok ()

/-- A pointer that is checked: `if (!p) goto out`. -/
def checked {α : Type} (err : ℤ) : Option α → Except Outcome α
  | some a => .ok a
  | none => fail err

/-- A pointer that is followed without a check. -/
def followed {α : Type} : Option α → Except Outcome α
  | some a => .ok a
  | none => .error .crashed

/-- The check of an interface name: `len == 1 || len >= IFNAMSIZ`. -/
def checkName (name : List UInt8) : Except Outcome Unit :=
  failIf (toInt32 (strlen name) = 1 ∨ (ifnamsiz : ℤ) ≤ toInt32 (strlen name)) (-einval)

/-- `nlmsg_alloc(NLMSG_GOOD_SIZE)`. -/
def allocRequest (env : Env) : Except Outcome Nlmsg :=
  checked (-enomem) (nlmsgAlloc env.nlmsg.1 env.nlmsg.2 nlmsgGoodSize)

/-- `nlmsg_alloc_reserve(NLMSG_GOOD_SIZE)`. -/
def allocAnswer (env : Env) : Except Outcome Nlmsg :=
  checked (-enomem) (nlmsgAllocReserve env.answer.1 env.answer.2 nlmsgGoodSize)

/-- The stores to `nlmsg_flags` and `nlmsg_type`. -/
def setHeader (msg : Nlmsg) (flags type : ℕ) : Nlmsg :=
  { msg with nlmsghdr := (msg.nlmsghdr.setU16 6 flags).setU16 4 type }

/-- Store one byte. -/
def setU8 (msg : Nlmsg) (off : ℕ) (value : ℤ) : Nlmsg :=
  { msg with nlmsghdr := msg.nlmsghdr.write off (leBytes 1 (toUInt32 value)) }

/-- Store a 32-bit number. -/
def setI32 (msg : Nlmsg) (off : ℕ) (value : ℤ) : Nlmsg :=
  { msg with nlmsghdr := msg.nlmsghdr.setU32 off (toUInt32 value) }

/-- `nlmsg_reserve`, its result not checked. -/
def reserve (msg : Nlmsg) (size : ℕ) : Except Outcome (ℕ × Nlmsg) := do
  let start ← followed (nlmsgReserve msg size).1
  return (start, (nlmsgReserve msg size).2)

/-- `nlmsg_reserve`, its result checked. -/
def reserveChecked (err : ℤ) (msg : Nlmsg) (size : ℕ) : Except Outcome (ℕ × Nlmsg) := do
  let start ← checked err (nlmsgReserve msg size).1
  return (start, (nlmsgReserve msg size).2)

/-- The result of a function of the `nla_put` family, checked. -/
def put (err : ℤ) (result : ℤ × Nlmsg) : Except Outcome Nlmsg := do
  failIf (result.1 ≠ 0) err
  return result.2

/-- `nla_begin_nested`, its result checked. -/
def beginNested (err : ℤ) (msg : Nlmsg) (attr : ℕ) : Except Outcome (ℕ × Nlmsg) := do
  let nest ← checked err (nlaBeginNested msg attr).1
  return (nest, (nlaBeginNested msg attr).2)

/-- The call of `netlink_transaction` that ends each function. -/
def transact (env : Env) : Except Outcome (Nlmsg × Nlmsg) → Outcome
  | .error outcome => outcome
  | .ok (_, answer) =>
    match netlinkTransaction env.send answer env.recv with
    | some (err, _) => .returned err
    | none => .waiting

/-! ### The functions -/

/-- `netdev_set_flag` up to its transaction. -/
def netdevSetFlagRequest (env : Env) (name : List UInt8) (flag : ℤ) :
    Except Outcome (Nlmsg × Nlmsg) := do
  failIf (env.netlinkOpen ≠ 0) env.netlinkOpen
  checkName name
  let nlmsg ← allocRequest env
  let answer ← allocAnswer env
  let index := toInt32 (env.ifNametoindex name)
  failIf (index = 0) (-einval)
  let nlmsg := setHeader nlmsg (nlmFRequest ||| nlmFAck) rtmNewlink
  let (ifi, nlmsg) ← reserve nlmsg ifinfomsgSize
  let nlmsg := setU8 nlmsg ifi afUnspec
  let nlmsg := setI32 nlmsg (ifi + 4) index
  let nlmsg := setI32 nlmsg (ifi + 12) (nlmsg.nlmsghdr.u32 (ifi + 12) ||| iffUp : ℕ)
  let nlmsg := setI32 nlmsg (ifi + 8) (nlmsg.nlmsghdr.u32 (ifi + 8) ||| toUInt32 flag : ℕ)
  return (nlmsg, answer)

/-- `netdev_set_flag`. -/
def netdevSetFlag (env : Env) (name : List UInt8) (flag : ℤ) : Outcome :=
  transact env (netdevSetFlagRequest env name flag)

/-- `netdev_delete_by_index` up to its transaction. -/
def netdevDeleteByIndexRequest (env : Env) (ifindex : ℤ) : Except Outcome (Nlmsg × Nlmsg) := do
  failIf (env.netlinkOpen ≠ 0) env.netlinkOpen
  let nlmsg ← allocRequest env
  let answer ← allocAnswer env
  let nlmsg := setHeader nlmsg (nlmFAck ||| nlmFRequest) rtmDellink
  let (ifi, nlmsg) ← reserve nlmsg ifinfomsgSize
  let nlmsg := setU8 nlmsg ifi afUnspec
  let nlmsg := setI32 nlmsg (ifi + 4) ifindex
  return (nlmsg, answer)

/-- `netdev_delete_by_name` up to the transaction of `netdev_delete_by_index`. -/
def netdevDeleteByNameRequest (env : Env) (name : List UInt8) :
    Except Outcome (Nlmsg × Nlmsg) := do
  let index := toInt32 (env.ifNametoindex name)
  failIf (index = 0) (-einval)
  netdevDeleteByIndexRequest env index

/-- `netdev_delete_by_name`. -/
def netdevDeleteByName (env : Env) (name : List UInt8) : Outcome :=
  transact env (netdevDeleteByNameRequest env name)

/-- `netdev_move_to_namespace` up to its transaction. The answer is the request. -/
def netdevMoveToNamespaceRequest (env : Env) (ifname : Option (List UInt8)) (pid : ℤ) :
    Except Outcome (Nlmsg × Nlmsg) := do
  let ifname ← checked (-1) ifname
  let ifindex := toInt32 (env.ifNametoindex ifname)
  failIf (ifindex = 0) (-1)
  failIf (env.netlinkOpen ≠ 0) env.netlinkOpen
  let nlmsg ← allocRequest env
  let nlmsg := setHeader nlmsg (nlmFRequest ||| nlmFAck) rtmNewlink
  let (ifi, nlmsg) ← reserve nlmsg ifinfomsgSize
  let nlmsg := setU8 nlmsg ifi afUnspec
  let nlmsg := setI32 nlmsg (ifi + 4) ifindex
  let nlmsg ← put (-enomem) (nlaPutU32 nlmsg iflaNetNsPid pid)
  let nlmsg ← put (-enomem) (nlaPutString nlmsg iflaIfname ifname)
  return (nlmsg, nlmsg)

/-- `netdev_move_to_namespace`. -/
def netdevMoveToNamespace (env : Env) (ifname : Option (List UInt8)) (pid : ℤ) : Outcome :=
  transact env (netdevMoveToNamespaceRequest env ifname pid)

/-- `network_veth_create` up to its transaction. -/
def networkVethCreateRequest (env : Env) (name1 name2 : List UInt8) :
    Except Outcome (Nlmsg × Nlmsg) := do
  failIf (env.netlinkOpen ≠ 0) env.netlinkOpen
  checkName name1
  checkName name2
  let nlmsg ← allocRequest env
  let answer ← allocAnswer env
  let nlmsg := setHeader nlmsg (nlmFRequest ||| nlmFCreate ||| nlmFExcl ||| nlmFAck) rtmNewlink
  let (ifi, nlmsg) ← reserve nlmsg ifinfomsgSize
  let nlmsg := setU8 nlmsg ifi afUnspec
  let (nest1, nlmsg) ← beginNested (-einval) nlmsg iflaLinkinfo
  let nlmsg ← put (-einval) (nlaPutString nlmsg iflaInfoKind vethKind)
  let (nest2, nlmsg) ← beginNested (-einval) nlmsg iflaInfoData
  let (nest3, nlmsg) ← beginNested (-einval) nlmsg vethInfoPeer
  let (_, nlmsg) ← reserveChecked (-einval) nlmsg ifinfomsgSize
  let nlmsg ← put (-einval) (nlaPutString nlmsg iflaIfname name2)
  let nlmsg := nlaEndNested nlmsg nest3
  let nlmsg := nlaEndNested nlmsg nest2
  let nlmsg := nlaEndNested nlmsg nest1
  let nlmsg ← put (-einval) (nlaPutString nlmsg iflaIfname name1)
  return (nlmsg, answer)

/-- `network_veth_create`. -/
def networkVethCreate (env : Env) (name1 name2 : List UInt8) : Outcome :=
  transact env (networkVethCreateRequest env name1 name2)

/-- The last check of `ip_addr_add`: for `AF_INET6` both other addresses must be
`in6addr_any`. -/
def checkAnycast (family : ℤ) (bcast : Memory) (acast : Option Memory) : Except Outcome Unit :=
  if family = afInet6 then do
    failIf (bcast.read 0 16 ≠ List.replicate 16 0) (-eprotonosupport)
    let acast ← followed acast
    failIf (acast.read 0 16 ≠ List.replicate 16 0) (-eprotonosupport)
  else .ok ()

/-- `ip_addr_add` up to its transaction. -/
def ipAddrAddRequest (env : Env) (family ifindex : ℤ) (addr bcast : Memory)
    (acast : Option Memory) (prefixlen : ℤ) : Except Outcome (Nlmsg × Nlmsg) := do
  let addrlen := if family = afInet then 4 else 16
  failIf (env.netlinkOpen ≠ 0) env.netlinkOpen
  let nlmsg ← allocRequest env
  let answer ← allocAnswer env
  let nlmsg := setHeader nlmsg (nlmFAck ||| nlmFRequest ||| nlmFCreate ||| nlmFExcl) rtmNewaddr
  let (ifa, nlmsg) ← reserve nlmsg ifaddrmsgSize
  let nlmsg := setU8 nlmsg (ifa + 1) prefixlen
  let nlmsg := setI32 nlmsg (ifa + 4) ifindex
  let nlmsg := setU8 nlmsg ifa family
  let nlmsg := setU8 nlmsg (ifa + 3) 0
  let nlmsg ← put (-einval) (nlaPutBuffer nlmsg ifaLocal (addr.read 0 addrlen))
  let nlmsg ← put (-einval) (nlaPutBuffer nlmsg ifaAddress (addr.read 0 addrlen))
  let nlmsg ← put (-einval) (nlaPutBuffer nlmsg ifaBroadcast (bcast.read 0 addrlen))
  checkAnycast family bcast acast
  return (nlmsg, answer)

/-- `ip_addr_add`. -/
def ipAddrAdd (env : Env) (family ifindex : ℤ) (addr bcast : Memory) (acast : Option Memory)
    (prefixlen : ℤ) : Outcome :=
  transact env (ipAddrAddRequest env family ifindex addr bcast acast prefixlen)

/-! ### The acknowledgement -/

/-- A call of one of the five functions, `ip_addr_add` for IPv4. -/
inductive Call
  | setFlag (name : List UInt8) (flag : ℤ)
  | deleteByName (name : List UInt8)
  | vethCreate (name1 name2 : List UInt8)
  | addrAdd (ifindex : ℤ) (addr bcast : Memory) (acast : Option Memory) (prefixlen : ℤ)
  | moveToNamespace (ifname : Option (List UInt8)) (pid : ℤ)

/-- The request and the answer with which a call reaches `netlink_transaction`. -/
def Call.request (env : Env) : Call → Except Outcome (Nlmsg × Nlmsg)
  | .setFlag name flag => netdevSetFlagRequest env name flag
  | .deleteByName name => netdevDeleteByNameRequest env name
  | .vethCreate name1 name2 => networkVethCreateRequest env name1 name2
  | .addrAdd ifindex addr bcast acast prefixlen =>
    ipAddrAddRequest env afInet ifindex addr bcast acast prefixlen
  | .moveToNamespace ifname pid => netdevMoveToNamespaceRequest env ifname pid

/-- What a call does. -/
def Call.run (env : Env) : Call → Outcome
  | .setFlag name flag => netdevSetFlag env name flag
  | .deleteByName name => netdevDeleteByName env name
  | .vethCreate name1 name2 => networkVethCreate env name1 name2
  | .addrAdd ifindex addr bcast acast prefixlen =>
    ipAddrAdd env afInet ifindex addr bcast acast prefixlen
  | .moveToNamespace ifname pid => netdevMoveToNamespace env ifname pid

theorem Call.run_eq (env : Env) (call : Call) : call.run env = transact env (call.request env) := by
  cases call <;> rfl

section Steps

variable {env : Env} {msg msg' request answer : Nlmsg} {bytes : List UInt8}

theorem checked_eq_ok {α : Type} {err : ℤ} {p : Option α} {a : α} :
    checked err p = .ok a ↔ p = some a := by
  cases p <;> simp [checked, fail]

theorem allocAnswer_len (alloc : allocAnswer env = .ok answer) : answer.len = 8208 := by
  have alloc := checked_eq_ok.mp alloc
  obtain ⟨fresh, found, rfl⟩ := nlmsgAllocReserve_some alloc
  rw [nlmsgAllocReserve_len alloc]
  dsimp only
  rw [nlmsgAlloc_cap found]
  decide

/-- A request under construction: the capacity that every function asks for, and the bytes
behind the length field. -/
structure Draft (bytes : List UInt8) (msg : Nlmsg) : Prop where
  cap : msg.cap = 8208
  built : Built msg bytes

theorem allocRequest_draft (alloc : allocRequest env = .ok msg) :
    Draft (List.replicate 12 0) msg := by
  have alloc := checked_eq_ok.mp alloc
  refine ⟨?_, built_of_alloc (by decide) alloc⟩
  rw [nlmsgAlloc_cap alloc]
  decide

theorem Draft.store (draft : Draft bytes msg) {pre old post new : List UInt8} {off : ℕ}
    (split : bytes = pre ++ old ++ post) (start : off = 4 + pre.length)
    (size : new.length = old.length) :
    Draft (pre ++ new ++ post) { msg with nlmsghdr := msg.nlmsghdr.write off new } :=
  ⟨draft.cap, draft.built.store split start size⟩

/-- The message header behind the length field. -/
def headerBytes (flags type : ℕ) : List UInt8 :=
  leBytes 2 type ++ leBytes 2 flags ++ List.replicate 8 0

theorem headerBytes_length (flags type : ℕ) : (headerBytes flags type).length = 12 := by
  simp [headerBytes]

theorem Draft.setHeader (draft : Draft (List.replicate 12 0) msg) (flags type : ℕ) :
    Draft (headerBytes flags type) (setHeader msg flags type) := by
  have flagged : Draft (List.replicate 2 0 ++ leBytes 2 flags ++ List.replicate 8 0) _ :=
    draft.store (show _ = List.replicate 2 0 ++ List.replicate 2 0 ++ List.replicate 8 0 from rfl)
      rfl (by simp)
  have typed : Draft ([] ++ leBytes 2 type ++ (leBytes 2 flags ++ List.replicate 8 0)) _ :=
    flagged.store (List.append_assoc ..) rfl (by simp)
  rw [List.nil_append, ← List.append_assoc] at typed
  exact typed

/-- `AF_UNSPEC` is zero, so storing it in a zero structure changes nothing. -/
theorem Draft.setUnspec {pre : List UInt8} {n : ℕ}
    (draft : Draft (pre ++ List.replicate (n + 1) 0) msg) :
    Draft (pre ++ List.replicate (n + 1) 0) (setU8 msg (4 + pre.length) afUnspec) := by
  have split : pre ++ List.replicate (n + 1) (0 : UInt8) = pre ++ [0] ++ List.replicate n 0 := by
    simp [List.replicate_succ]
  have stored := draft.store split rfl (show (leBytes 1 (toUInt32 afUnspec)).length = 1 from rfl)
  rw [split]
  exact stored

theorem yields_failIf {cond : Prop} [Decidable cond] {err : ℤ} (not : ¬ cond) :
    Yields (failIf cond err) fun _ => True :=
  ⟨(), if_neg not, trivial⟩

/-- `nlmsg_reserve` appends zeros where there is room. -/
theorem Draft.reserved (draft : Draft bytes msg) {size : ℕ}
    (room : 4 + bytes.length + alignUp size ≤ 8208) :
    ∃ msg', nlmsgReserve msg size = (some (4 + bytes.length), msg') ∧
      Draft (bytes ++ List.replicate (alignUp size) 0) msg' := by
  have lower := le_alignUp size
  obtain ⟨msg', result, cap, built⟩ := draft.built.reserve (n := size) (by omega)
    (by rw [draft.built.len, draft.cap]; exact room)
  rw [draft.built.len] at result
  exact ⟨msg', result, cap.trans draft.cap, built⟩

theorem yields_reserve (draft : Draft bytes msg) {size : ℕ}
    (room : 4 + bytes.length + alignUp size ≤ 8208) :
    Yields (reserve msg size) fun r =>
      r.1 = 4 + bytes.length ∧ Draft (bytes ++ List.replicate (alignUp size) 0) r.2 := by
  obtain ⟨msg', result, draft'⟩ := draft.reserved room
  refine ⟨(4 + bytes.length, msg'), ?_, rfl, draft'⟩
  rw [reserve, result]
  rfl

theorem yields_reserveChecked (draft : Draft bytes msg) {size : ℕ} (err : ℤ)
    (room : 4 + bytes.length + alignUp size ≤ 8208) :
    Yields (reserveChecked err msg size) fun r =>
      r.1 = 4 + bytes.length ∧ Draft (bytes ++ List.replicate (alignUp size) 0) r.2 := by
  obtain ⟨msg', result, draft'⟩ := draft.reserved room
  refine ⟨(4 + bytes.length, msg'), ?_, rfl, draft'⟩
  rw [reserveChecked, result]
  rfl

theorem yields_put (draft : Draft bytes msg) (err : ℤ) (type : ℕ) (data : List UInt8)
    (room : 4 + bytes.length + alignUp (4 + data.length) ≤ 8208) :
    Yields (put err (nlaPut msg type data)) (Draft (bytes ++ attrBytes type data)) := by
  have lower := le_alignUp (4 + data.length)
  obtain ⟨msg', result, cap, built⟩ := draft.built.put type data (by omega)
    (by rw [draft.built.len, draft.cap]; exact room)
  refine ⟨msg', ?_, cap.trans draft.cap, built⟩
  rw [put, result]
  rfl

theorem yields_beginNested (draft : Draft bytes msg) (err : ℤ) (type : ℕ)
    (room : 4 + bytes.length + 4 ≤ 8208) :
    Yields (beginNested err msg type) fun r =>
      r.1 = 4 + bytes.length ∧ Draft (bytes ++ attrBytes type []) r.2 := by
  obtain ⟨msg', result, cap, built⟩ := draft.built.beginNested type
    (by rw [draft.built.len, draft.cap]; exact room)
  refine ⟨(4 + bytes.length, msg'), ?_, rfl, cap.trans draft.cap, built⟩
  rw [beginNested, result]
  rfl

theorem Draft.endNested {pre payload : List UInt8} {type nest : ℕ}
    (draft : Draft (pre ++ attrBytes type [] ++ payload) msg) (start : nest = 4 + pre.length)
    (aligned : payload.length % 4 = 0) :
    Draft (pre ++ attrBytes type payload) (nlaEndNested msg nest) := by
  subst start
  exact ⟨draft.cap, draft.built.endNested aligned⟩

end Steps

/-! ### The request for a pair of interfaces -/

/-- A name that `network_veth_create` accepts. -/
def Accepted (name : List UInt8) : Prop := strlen name ≠ 1 ∧ strlen name < ifnamsiz

instance (name : List UInt8) : Decidable (Accepted name) := inferInstanceAs (Decidable (_ ∧ _))

/-- The request of `network_veth_create` behind the length field: the header, a zero
`struct ifinfomsg`, and two attributes, the first of which nests the others. -/
def vethBytes (name1 name2 : List UInt8) : List UInt8 :=
  headerBytes (nlmFRequest ||| nlmFCreate ||| nlmFExcl ||| nlmFAck) rtmNewlink ++
    List.replicate ifinfomsgSize 0 ++
    attrBytes iflaLinkinfo
      (attrBytes iflaInfoKind (cString vethKind) ++
        attrBytes iflaInfoData
          (attrBytes vethInfoPeer
            (List.replicate ifinfomsgSize 0 ++ attrBytes iflaIfname (cString name2)))) ++
    attrBytes iflaIfname (cString name1)

section Veth

variable {env : Env} {name name1 name2 : List UInt8} {fresh answer : Nlmsg}

theorem cString_length (name : List UInt8) : (cString name).length = strlen name + 1 := by
  simp [cString, strlen, text]

theorem yields_checkName (accepted : Accepted name) : Yields (checkName name) fun _ => True := by
  obtain ⟨notOne, short⟩ := accepted
  rw [ifnamsiz] at short
  apply yields_failIf
  rw [toInt32_of_range (by omega) (by omega), ifnamsiz]
  omega

/-- The attribute of an accepted name takes at most twenty bytes. -/
theorem Accepted.attr_le (accepted : Accepted name) : alignUp (4 + (cString name).length) ≤ 20 := by
  have short : strlen name < 16 := accepted.2
  rw [cString_length]
  exact alignUp_le (by decide) (by omega)

/-- What the peer attribute nests needs no padding. -/
theorem peer_length_mod (name : List UInt8) :
    (List.replicate (alignUp ifinfomsgSize) (0 : UInt8) ++
      attrBytes iflaIfname (cString name)).length % 4 = 0 := by
  have padded := attrBytes_length_mod iflaIfname (cString name)
  rw [List.length_append, List.length_replicate, show alignUp ifinfomsgSize = 16 from rfl]
  omega

/-- The length of what `IFLA_LINKINFO` nests: the kind, two attribute headers, the zero
structure and the name. -/
theorem linkinfo_length (name : List UInt8) :
    (attrBytes iflaInfoKind (cString vethKind) ++ attrBytes iflaInfoData
      (attrBytes vethInfoPeer (List.replicate (alignUp ifinfomsgSize) (0 : UInt8) ++
        attrBytes iflaIfname (cString name)))).length =
      36 + (attrBytes iflaIfname (cString name)).length := by
  rw [List.length_append, attrBytes_length_of_mod (attrBytes_length_mod vethInfoPeer _),
    attrBytes_length_of_mod (peer_length_mod name), List.length_append, List.length_replicate,
    show alignUp ifinfomsgSize = 16 from rfl,
    show (attrBytes iflaInfoKind (cString vethKind)).length = 12 from rfl]
  omega

theorem linkinfo_length_mod (name : List UInt8) :
    (attrBytes iflaInfoKind (cString vethKind) ++ attrBytes iflaInfoData
      (attrBytes vethInfoPeer (List.replicate (alignUp ifinfomsgSize) (0 : UInt8) ++
        attrBytes iflaIfname (cString name)))).length % 4 = 0 := by
  have padded := attrBytes_length_mod iflaIfname (cString name)
  rw [linkinfo_length]
  omega

theorem yields_veth (opened : env.netlinkOpen = 0) (alloc : allocRequest env = .ok fresh)
    (reserved : allocAnswer env = .ok answer) (accepted1 : Accepted name1)
    (accepted2 : Accepted name2) :
    Yields (networkVethCreateRequest env name1 name2) fun r =>
      r.2 = answer ∧ Draft (vethBytes name1 name2) r.1 := by
  unfold networkVethCreateRequest
  refine (yields_failIf (by simpa using opened)).bind fun _ _ => ?_
  refine (yields_checkName accepted1).bind fun _ _ => ?_
  refine (yields_checkName accepted2).bind fun _ _ => ?_
  refine Yields.bind ⟨fresh, alloc, rfl⟩ fun msg₀ is_fresh => ?_
  refine Yields.bind ⟨answer, reserved, rfl⟩ fun _ is_answer => ?_
  have draft₁ := (is_fresh ▸ allocRequest_draft alloc : Draft _ msg₀).setHeader
    (nlmFRequest ||| nlmFCreate ||| nlmFExcl ||| nlmFAck) rtmNewlink
  refine (yields_reserve draft₁ (by rw [headerBytes_length]; decide)).bind ?_
  rintro ⟨ifi, msg₂⟩ ⟨rfl, draft₂⟩
  have draft₃ := Draft.setUnspec (n := 15) draft₂
  -- From here on only the length of what stands before the attributes matters.
  rw [vethBytes]
  generalize head : headerBytes (nlmFRequest ||| nlmFCreate ||| nlmFExcl ||| nlmFAck) rtmNewlink ++
    List.replicate 16 (0 : UInt8) = bytes at draft₃
  have head_length : bytes.length = 28 := by
    rw [← head]
    rfl
  have kind_length : (attrBytes iflaInfoKind (cString vethKind)).length = 12 := rfl
  have nest_length (type : ℕ) : (attrBytes type []).length = 4 := attrBytes_length type []
  refine (yields_beginNested draft₃ (-einval) iflaLinkinfo (by omega)).bind ?_
  rintro ⟨nest1, msg₄⟩ ⟨at1, draft₄⟩
  refine (yields_put draft₄ (-einval) iflaInfoKind (cString vethKind) ?_).bind fun msg₅ draft₅ => ?_
  · simp only [List.length_append, nest_length, head_length]
    decide
  refine (yields_beginNested draft₅ (-einval) iflaInfoData ?_).bind ?_
  · simp only [List.length_append, nest_length, kind_length]
    omega
  rintro ⟨nest2, msg₆⟩ ⟨at2, draft₆⟩
  refine (yields_beginNested draft₆ (-einval) vethInfoPeer ?_).bind ?_
  · simp only [List.length_append, nest_length, kind_length]
    omega
  rintro ⟨nest3, msg₇⟩ ⟨at3, draft₇⟩
  refine (yields_reserveChecked draft₇ (-einval) ?_).bind ?_
  · simp only [List.length_append, nest_length, kind_length, head_length]
    decide
  rintro ⟨_, msg₈⟩ ⟨_, draft₈⟩
  have zeros_length : (List.replicate (alignUp ifinfomsgSize) (0 : UInt8)).length = 16 := rfl
  have name_le := accepted2.attr_le
  refine (yields_put draft₈ (-einval) iflaIfname (cString name2) ?_).bind fun msg₉ draft₉ => ?_
  · simp only [List.length_append, nest_length, kind_length, zeros_length]
    omega
  -- The three nests are closed from the inside out.
  rw [List.append_assoc] at draft₉
  have draft₁₀ := draft₉.endNested at3 (peer_length_mod name2)
  have draft₁₁ := draft₁₀.endNested at2 (attrBytes_length_mod vethInfoPeer _)
  rw [List.append_assoc] at draft₁₁
  have info_length := linkinfo_length name2
  have info_mod := linkinfo_length_mod name2
  have draft₁₂ := draft₁₁.endNested at1 info_mod
  have name_le' := accepted1.attr_le
  refine (yields_put draft₁₂ (-einval) iflaIfname (cString name1) ?_).bind fun msg₁₃ draft₁₃ => ?_
  · rw [List.length_append, attrBytes_length_of_mod info_mod, info_length, attrBytes_length]
    omega
  rw [← head] at draft₁₃
  exact .pure ⟨is_answer.symm, draft₁₃⟩

end Veth

/-- No step of `network_veth_create` fails on accepted names, and its request is the header,
the zero structure and the attributes of `vethBytes`, and nothing else. -/
theorem networkVethCreate_bytes {env : Env} {name1 name2 : List UInt8} {fresh answer : Nlmsg}
    (opened : env.netlinkOpen = 0) (alloc : allocRequest env = .ok fresh)
    (reserved : allocAnswer env = .ok answer) (accepted1 : Accepted name1)
    (accepted2 : Accepted name2) :
    ∃ request, networkVethCreateRequest env name1 name2 = .ok (request, answer) ∧
      request.len = 4 + (vethBytes name1 name2).length ∧
      request.nlmsghdr.read 0 request.len = leBytes 4 request.len ++ vethBytes name1 name2 := by
  obtain ⟨⟨request, _⟩, built, rfl, draft⟩ := yields_veth opened alloc reserved accepted1 accepted2
  exact ⟨request, built, draft.built.len, draft.built.read⟩

/-- Surroundings in which everything succeeds and no answer comes. -/
def plainEnv : Env where
  netlinkOpen := 0
  nlmsg := (true, some fun _ => 0)
  answer := (true, some fun _ => 0)
  ifNametoindex _ := 1
  send := { sent := some 32, errno := 0 }
  recv := []

theorem networkVethCreate_bytes_plain :
    Accepted [0x76, 0x30] ∧ Accepted [] ∧
      ∃ request answer, networkVethCreateRequest plainEnv [0x76, 0x30] [] = .ok (request, answer) ∧
        request.len = 4 + (vethBytes [0x76, 0x30] []).length ∧
        request.nlmsghdr.read 0 request.len =
          leBytes 4 request.len ++ vethBytes [0x76, 0x30] [] := by
  have accepted1 : Accepted [0x76, 0x30] := by decide
  have accepted2 : Accepted [] := by decide
  obtain ⟨request, built⟩ :=
    networkVethCreate_bytes (show plainEnv.netlinkOpen = 0 from rfl) rfl rfl accepted1 accepted2
  exact ⟨accepted1, accepted2, request, _, built⟩

/-! ### The request for an address -/

/-- The structure `ifaddrmsg` of an IPv4 request. -/
def ifaBytes (ifindex prefixlen : ℤ) : List UInt8 :=
  leBytes 1 (toUInt32 afInet) ++ leBytes 1 (toUInt32 prefixlen) ++ [0] ++ leBytes 1 (toUInt32 0) ++
    leBytes 4 (toUInt32 ifindex)

/-- The request of `ip_addr_add` for IPv4 behind the length field: the header, the structure
`ifaddrmsg`, and three attributes of four bytes. -/
def addrBytes (ifindex : ℤ) (addr bcast : List UInt8) (prefixlen : ℤ) : List UInt8 :=
  headerBytes (nlmFAck ||| nlmFRequest ||| nlmFCreate ||| nlmFExcl) rtmNewaddr ++
    ifaBytes ifindex prefixlen ++ attrBytes ifaLocal addr ++ attrBytes ifaAddress addr ++
    attrBytes ifaBroadcast bcast

section Address

variable {env : Env} {msg fresh answer : Nlmsg} {pre : List UInt8}

/-- The four stores to the zero structure. -/
theorem Draft.setIfa (draft : Draft (pre ++ List.replicate 8 0) msg) (ifindex prefixlen : ℤ) :
    Draft (pre ++ ifaBytes ifindex prefixlen)
      (setU8 (setU8 (setI32 (setU8 msg (4 + pre.length + 1) prefixlen) (4 + pre.length + 4) ifindex)
        (4 + pre.length) afInet) (4 + pre.length + 3) 0) := by
  have draft₁ : Draft (pre ++ [0] ++ leBytes 1 (toUInt32 prefixlen) ++ List.replicate 6 0) _ :=
    draft.store (show _ = pre ++ [0] ++ [0] ++ List.replicate 6 0 by simp [List.replicate_succ])
      (show 4 + pre.length + 1 = _ by simp; omega) (by simp)
  have draft₂ : Draft (pre ++ [0] ++ leBytes 1 (toUInt32 prefixlen) ++ [0, 0] ++
      leBytes 4 (toUInt32 ifindex) ++ []) _ :=
    draft₁.store (show _ = _ ++ List.replicate 4 0 ++ [] by simp [List.replicate_succ])
      (show 4 + pre.length + 4 = _ by simp; omega) (by simp)
  have draft₃ : Draft (pre ++ leBytes 1 (toUInt32 afInet) ++ (leBytes 1 (toUInt32 prefixlen) ++
      [0, 0] ++ leBytes 4 (toUInt32 ifindex))) _ :=
    draft₂.store (show _ = pre ++ [0] ++ _ by simp) rfl (by simp)
  have draft₄ : Draft (pre ++ leBytes 1 (toUInt32 afInet) ++ leBytes 1 (toUInt32 prefixlen) ++
      [0] ++ leBytes 1 (toUInt32 0) ++ leBytes 4 (toUInt32 ifindex)) _ :=
    draft₃.store (show _ = _ ++ [0] ++ _ by simp) (show 4 + pre.length + 3 = _ by simp; omega)
      (by simp)
  simp only [List.append_assoc] at draft₄
  simp only [ifaBytes, List.append_assoc]
  exact draft₄

/-- No step fails, and the request holds the given address twice. -/
theorem yields_addrAdd (opened : env.netlinkOpen = 0) (alloc : allocRequest env = .ok fresh)
    (reserved : allocAnswer env = .ok answer) (ifindex : ℤ) (addr bcast : Memory)
    (acast : Option Memory) (prefixlen : ℤ) :
    Yields (ipAddrAddRequest env afInet ifindex addr bcast acast prefixlen) fun r =>
      r.2 = answer ∧ Draft (addrBytes ifindex (addr.read 0 4) (bcast.read 0 4) prefixlen) r.1 := by
  unfold ipAddrAddRequest
  refine (yields_failIf (by simpa using opened)).bind fun _ _ => ?_
  refine Yields.bind ⟨fresh, alloc, rfl⟩ fun msg₀ is_fresh => ?_
  refine Yields.bind ⟨answer, reserved, rfl⟩ fun _ is_answer => ?_
  have draft₁ := (is_fresh ▸ allocRequest_draft alloc : Draft _ msg₀).setHeader
    (nlmFAck ||| nlmFRequest ||| nlmFCreate ||| nlmFExcl) rtmNewaddr
  refine (yields_reserve draft₁ (by rw [headerBytes_length]; decide)).bind ?_
  rintro ⟨ifa, msg₂⟩ ⟨rfl, draft₂⟩
  have draft₃ := (show Draft (_ ++ List.replicate 8 0) msg₂ from draft₂).setIfa ifindex prefixlen
  have sizes (addr : Memory) : (addr.read 0 4).length = 4 := Memory.read_length
  have head : (headerBytes (nlmFAck ||| nlmFRequest ||| nlmFCreate ||| nlmFExcl) rtmNewaddr ++
      ifaBytes ifindex prefixlen).length = 20 := rfl
  rw [addrBytes]
  refine (yields_put draft₃ (-einval) ifaLocal (addr.read 0 4) ?_).bind fun msg₄ draft₄ => ?_
  · rw [head, sizes]
    decide
  refine (yields_put draft₄ (-einval) ifaAddress (addr.read 0 4) ?_).bind fun msg₅ draft₅ => ?_
  · rw [List.length_append, head, attrBytes_length, sizes]
    decide
  refine (yields_put draft₅ (-einval) ifaBroadcast (bcast.read 0 4) ?_).bind fun msg₆ draft₆ => ?_
  · rw [List.length_append, List.length_append, head, attrBytes_length, attrBytes_length, sizes,
      sizes]
    decide
  have checked : Yields (checkAnycast afInet bcast acast) fun _ => True := ⟨(), rfl, trivial⟩
  exact checked.bind fun _ _ => .pure ⟨is_answer.symm, draft₆⟩

end Address

/-! ### Every acknowledgement is understood -/

section Acknowledgement

variable {env : Env} {msg : Nlmsg}

/-- The message grows by the room that `nla_put` counts, whatever the size of the payload. -/
theorem returns_put {err attr : ℤ} {data : List UInt8} (cap : msg.cap < 2 ^ 32) :
    Returns (put err (nlaPut msg attr data)) fun msg' =>
      msg'.cap = msg.cap ∧ msg'.len = nlmsgTail msg + countedRoom data.length ∧
        msg'.len ≤ msg.cap := by
  refine .bind fun _ passed => .pure ?_
  have zero : (nlaPut msg attr data).1 = 0 := by
    by_contra failed
    rw [failIf, if_pos failed] at passed
    cases passed
  have room := (nlaPut_eq_zero msg attr data).mp zero
  have len : (nlaPut msg attr data).2.len = nlmsgTail msg + countedRoom data.length := by
    rw [nlaPut_eq, if_neg (by omega), Nlmsg.len, nlmsgLen, Memory.u32_setU32_same]
    omega
  refine ⟨?_, len, by omega⟩
  rw [nlaPut_eq, if_neg (by omega)]

/-- Stores behind the length field do not change it. -/
theorem len_write {off : ℕ} (behind : 4 ≤ off) (bytes : List UInt8) :
    Nlmsg.len { msg with nlmsghdr := msg.nlmsghdr.write off bytes } = msg.len :=
  Memory.u32_congr fun i _ upper => Memory.write_apply_of_lt (by omega)

/-- The request of `netdev_move_to_namespace`, in which it receives the answer, has room for
more than an error code. -/
theorem netdevMoveToNamespace_answer (ifname : Option (List UInt8)) (pid : ℤ) :
    Returns (netdevMoveToNamespaceRequest env ifname pid) fun r =>
      20 ≤ r.2.len ∧ r.2.len ≤ 8208 := by
  unfold netdevMoveToNamespaceRequest
  refine .bind fun name _ => .bind fun _ _ => .bind fun _ _ => .bind fun msg alloc => ?_
  have draft := (allocRequest_draft alloc).setHeader (nlmFRequest ||| nlmFAck) rtmNewlink
  obtain ⟨⟨ifi, msg₁⟩, reserved, rfl, draft₁⟩ :=
    yields_reserve draft (show _ + alignUp ifinfomsgSize ≤ 8208 by rw [headerBytes_length]; decide)
  refine .bind fun r returned => ?_
  obtain rfl := Except.ok.inj (reserved.symm.trans returned)
  have cap₁ : msg₁.cap = 8208 := draft₁.cap
  have len₁ : msg₁.len = 32 := by
    rw [draft₁.built.len]
    rfl
  -- The two stores to the structure keep the length, the two attributes add to it.
  have len₂ (value index : ℤ) : nlmsgTail (setI32 (setU8 msg₁ 16 value) 20 index) = 32 := by
    rw [nlmsgTail, setI32, Memory.setU32, len_write (by decide), setU8, len_write (by decide), len₁]
    decide
  refine .bind fun msg₃ put₃ => ?_
  obtain ⟨cap₃, len₃, -⟩ := returns_put (by rw [setI32, setU8, cap₁]; decide) msg₃ put₃
  replace len₃ := len₃.trans (congrArg (· + _) (len₂ _ _))
  replace cap₃ : msg₃.cap = 8208 := cap₃.trans cap₁
  have tail₃ : nlmsgTail msg₃ = 40 := by
    rw [nlmsgTail, len₃, leBytes_length]
    decide
  refine .bind fun msg₄ put₄ => ?_
  obtain ⟨-, len₄, within⟩ := returns_put (by omega) msg₄ put₄
  exact .pure ⟨show 20 ≤ msg₄.len by omega, show msg₄.len ≤ 8208 by omega⟩

/-- The length with which a call receives its answer. -/
theorem Call.answer_len (call : Call) :
    Returns (call.request env) fun r => 20 ≤ r.2.len ∧ r.2.len ≤ 8208 := by
  have own {answer : Nlmsg} (alloc : allocAnswer env = .ok answer) :
      20 ≤ answer.len ∧ answer.len ≤ 8208 := by
    have := allocAnswer_len alloc
    omega
  cases call with
  | setFlag name flag =>
    refine .bind fun _ _ => .bind fun _ _ => .bind fun _ _ => .bind fun _ alloc => ?_
    exact .bind fun _ _ => .bind fun _ _ => .pure (own alloc)
  | deleteByName name =>
    refine .bind fun _ _ => .bind fun _ _ => .bind fun _ _ => .bind fun _ alloc => ?_
    exact .bind fun _ _ => .pure (own alloc)
  | vethCreate name1 name2 =>
    refine .bind fun _ _ => .bind fun _ _ => .bind fun _ _ => .bind fun _ _ => ?_
    refine .bind fun _ alloc => .bind fun _ _ => .bind fun _ _ => .bind fun _ _ => ?_
    refine .bind fun _ _ => .bind fun _ _ => ?_
    exact .bind fun _ _ => .bind fun _ _ => .bind fun _ _ => .pure (own alloc)
  | addrAdd ifindex addr bcast acast prefixlen =>
    refine .bind fun _ _ => .bind fun _ _ => .bind fun _ alloc => ?_
    refine .bind fun _ _ => .bind fun _ _ => .bind fun _ _ => .bind fun _ _ => .bind fun _ _ => ?_
    exact .pure (own alloc)
  | moveToNamespace ifname pid => exact netdevMoveToNamespace_answer ifname pid

end Acknowledgement

/-- A call that reaches `netlink_transaction` returns the error code of the acknowledgement,
whether this ends with the header of the request or echoes all of it. -/
theorem call_returns_error {env : Env} {call : Call} {request answer : Nlmsg} {x : Message}
    {interrupts later : List Recv} {errno : ℕ} {e : ℤ}
    (reached : call.request env = .ok (request, answer)) (sent : 0 ≤ netlinkSend env.send)
    (interrupted : Interrupted interrupts)
    (received : env.recv = interrupts ++ { datagram := some x.bytes, errno } :: later)
    (type : x.type = nlmsgError) (code : x.error = e)
    (size : x.bytes.length = 36 ∨ x.bytes.length = 20 + request.len) :
    call.run env = .returned e := by
  obtain ⟨room, within⟩ : 20 ≤ answer.len ∧ answer.len ≤ 8208 := call.answer_len _ reached
  obtain ⟨answer', transaction⟩ : ∃ answer', netlinkTransaction env.send answer
      (interrupts ++ { datagram := some x.bytes, errno } :: later) = some (x.error, answer') :=
    netlinkTransaction_error sent interrupted room (by omega) type (by omega)
  rw [Call.run_eq, reached, transact, received, transaction, code]

/-- The acknowledgement of a request with code `-EEXIST`, which ends with the header of the
request. -/
def existsAck : Message :=
  .make nlmsgError 0 (leBytes 4 (toUInt32 (-17)) ++ List.replicate 16 0) (by decide)

/-- Surroundings in which the acknowledgement comes after one interruption. -/
def ackEnv : Env where
  __ := plainEnv
  recv := [{ datagram := none, errno := eintr }, { datagram := some existsAck.bytes, errno := 0 }]

/-- The acknowledgement with code `-ESRCH` of a request of 48 bytes, all of which it echoes. -/
def echoAck : Message :=
  .make nlmsgError 0 (leBytes 4 (toUInt32 (-3)) ++ List.replicate 48 0) (by decide)

/-- Surroundings in which the request is echoed. -/
def echoEnv : Env where
  __ := plainEnv
  recv := [{ datagram := some echoAck.bytes, errno := 0 }]

/-- The request for the interface `v0`; its answer is received in the same 48 bytes. -/
theorem moveToNamespace_request : ∃ request,
    (Call.moveToNamespace (some [0x76, 0x30]) 7).request echoEnv = .ok (request, request) ∧
      request.len = 48 := by
  have built : (match (Call.moveToNamespace (some [0x76, 0x30]) 7).request echoEnv with
      | .ok r => r.1.len
      | .error _ => 0) = 48 := by
    decide +kernel
  have shared : Returns ((Call.moveToNamespace (some [0x76, 0x30]) 7).request echoEnv)
      fun r => r.2 = r.1 := by
    refine .bind fun _ _ => .bind fun _ _ => .bind fun _ _ => .bind fun _ _ => .bind fun _ _ => ?_
    exact .bind fun _ _ => .bind fun _ _ => .pure rfl
  cases request : (Call.moveToNamespace (some [0x76, 0x30]) 7).request echoEnv with
  | error outcome =>
    rw [request] at built
    cases built
  | ok r =>
    obtain ⟨first, second⟩ := r
    rw [request] at built
    obtain rfl : second = first := shared _ request
    exact ⟨second, rfl, built⟩

/-- A short acknowledgement after an interruption, and one that echoes the request and is cut to
its length. -/
theorem call_returns_error_exists :
    ((∃ request, (Call.vethCreate [0x76, 0x30] []).request ackEnv = .ok request) ∧
      existsAck.bytes.length = 36 ∧
      (Call.vethCreate [0x76, 0x30] []).run ackEnv = .returned (-17)) ∧
    ∃ request, (Call.moveToNamespace (some [0x76, 0x30]) 7).request echoEnv =
        .ok (request, request) ∧
      request.len < echoAck.bytes.length ∧ echoAck.bytes.length = 20 + request.len ∧
      (Call.moveToNamespace (some [0x76, 0x30]) 7).run echoEnv = .returned (-3) := by
  constructor
  · obtain ⟨⟨request, answer⟩, reached, -⟩ := yields_veth (show ackEnv.netlinkOpen = 0 from rfl)
      rfl rfl (show Accepted [0x76, 0x30] by decide) (show Accepted [] by decide)
    have interrupted : Interrupted [{ datagram := none, errno := eintr }] := by
      intro outcome mem
      obtain rfl := List.mem_singleton.mp mem
      exact ⟨rfl, rfl⟩
    have code : existsAck.error = -17 :=
      show toInt32 (toUInt32 (-17)) = -17 from toInt32_toUInt32 (by decide) (by decide)
    have sent : 0 ≤ netlinkSend ackEnv.send := netlinkSend_sent (by decide)
    exact ⟨⟨_, reached⟩, rfl, call_returns_error reached sent interrupted
      (show ackEnv.recv = _ ++ { datagram := some existsAck.bytes, errno := 0 } :: [] from rfl) rfl
      code (.inl rfl)⟩
  · obtain ⟨request, reached, len⟩ := moveToNamespace_request
    have size : echoAck.bytes.length = 20 + request.len := by
      rw [len]
      rfl
    have code : echoAck.error = -3 :=
      show toInt32 (toUInt32 (-3)) = -3 from toInt32_toUInt32 (by decide) (by decide)
    have sent : 0 ≤ netlinkSend echoEnv.send := netlinkSend_sent (by decide)
    have none_interrupted : Interrupted [] := fun outcome mem => absurd mem List.not_mem_nil
    refine ⟨request, reached, by omega, size, ?_⟩
    exact call_returns_error reached sent none_interrupted
      (show echoEnv.recv = [] ++ { datagram := some echoAck.bytes, errno := 0 } :: [] from rfl) rfl
      code (.inr size)

end LinuxProgram.NetworkCode
