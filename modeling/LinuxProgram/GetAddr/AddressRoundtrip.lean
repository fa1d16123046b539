import LinuxProgram.GetAddr.Filters
import LinuxProgram.NetworkCode.Requests

/-!
# Writing an address and reading it back

`ip_addr_add` of `network/code` writes an address message, `nl_get_if_addr` of
`network/getaddr` reads one. They belong to different programs and share only the layout of the
message. What the one hands to `netlink_transaction` for an IPv4 address is read by the other
as that address.
-/

namespace LinuxProgram.GetAddr

open Base Netlink NetworkCode

section Show

variable {ε : Type} {m : Memory} {tb : AttrTable} {first second : ℕ}

/-- What is shown of a message that has both addresses. -/
theorem run_showAddr (address : tb ifaAddress = some first) (own : tb ifaLocal = some second) :
    (showAddr tb : Reading Part ε _).run m = some (.ok
      { value := 0
        shown := some
          { ifaAddr := some (leNat (m.read (first + 4) 4))
            ifaLocal := some (leNat (m.read (second + 4) 4))
            ifaLabel := (tb ifaLabel).map fun rta => (m.read (rta + 4) ifnamsiz).takeWhile (· ≠ 0)
            interAddr := m.read (first + 4) 4
            localAddr := m.read (second + 4) 4
            prefixlen := (m 17).toNat
            addressNull := false } }) := by
  have kept : fallBack tb = tb := by rw [fallBack, if_neg (by simp [address])]
  rw [showAddr, kept, address, own, Reading.run_bind_ok run_word, Reading.run_bind_ok run_word,
    Reading.run_bind_ok run_label, Reading.run_bind_ok run_rtAddrN2a,
    Reading.run_bind_ok run_rtAddrN2a, Reading.run_num_bind, Memory.leNat_read_one]
  rfl

/-- The filter on an IPv4 message of moderate length is the parser and what comes behind it. -/
theorem run_nlGetIfAddr {ifaMax : ℕ} (family : ((m 16).toNat : ℤ) = afInet)
    (header : 24 ≤ nlmsgLen m 0) (counted : nlmsgLen m 0 < 2 ^ 31) :
    (nlGetIfAddr ifaMax : Reading Part ε _).run m =
      (showAddr (nlParseRtattr m (fun _ => none) ifaMax 24 ((nlmsgLen m 0 : ℤ) - 24)).2).run m := by
  have word : leNat (m.read 0 4) = nlmsgLen m 0 := rfl
  have area : (nlmsgHdrlen + ifaddrmsgSize : ℤ) = 24 := rfl
  rw [nlGetIfAddr, Reading.run_num_bind, Reading.run_ite, Memory.leNat_read_one,
    if_neg (not_not.mpr family),
    Reading.run_num_bind, Reading.run_ite, word, area,
    toInt32_of_range (n := (nlmsgLen m 0 : ℤ) - 24) (by omega) (by omega), if_neg (by omega),
    Reading.run_bind_ok run_parseRtattr]

end Show

section Request

variable {m : Memory} {addr bcast : List UInt8} {ifindex prefixlen : ℤ}

theorem addrBytes_length (size : addr.length = 4) (size' : bcast.length = 4) :
    (addrBytes ifindex addr bcast prefixlen).length = 44 := by
  simp only [addrBytes, List.length_append, attrBytes_length, size, size']
  rfl

/-- The parts of a request for an address, one behind the other. -/
theorem parts_of_holds (size : addr.length = 4)
    (held : m.Holds 4 (addrBytes ifindex addr bcast prefixlen)) :
    m.Holds 16 (ifaBytes ifindex prefixlen) ∧ m.Holds 24 (attrBytes ifaLocal addr) ∧
      m.Holds 32 (attrBytes ifaAddress addr) ∧ m.Holds 40 (attrBytes ifaBroadcast bcast) := by
  rw [addrBytes, Memory.holds_append, Memory.holds_append, Memory.holds_append,
    Memory.holds_append] at held
  simp only [List.length_append, attrBytes_length, size] at held
  obtain ⟨⟨⟨⟨-, fixed⟩, own⟩, address⟩, broadcast⟩ := held
  exact ⟨fixed, own, address, broadcast⟩

/-- The attributes of a request for an address. -/
theorem lastAttr_of_holds (size : addr.length = 4) (size' : bcast.length = 4)
    (own : m.Holds 24 (attrBytes ifaLocal addr)) (address : m.Holds 32 (attrBytes ifaAddress addr))
    (broadcast : m.Holds 40 (attrBytes ifaBroadcast bcast)) (t : ℕ) :
    lastAttr m 24 24 t = if ifaBroadcast = t then some 40 else if ifaAddress = t then some 32
      else if ifaLocal = t then some 24 else none := by
  obtain ⟨len₁, type₁, -⟩ := attr_of_holds own (by omega) (by decide)
  obtain ⟨len₂, type₂, -⟩ := attr_of_holds address (by omega) (by decide)
  obtain ⟨len₃, type₃, -⟩ := attr_of_holds broadcast (by omega) (by decide)
  rw [size] at len₁ len₂
  rw [size'] at len₃
  have step₁ : lastAttr m 24 24 t =
      (lastAttr m 32 16 t).or (if ifaLocal = t then some 24 else none) := by
    rw [lastAttr_cons len₁ (by decide) (by decide), type₁]
    rfl
  have step₂ : lastAttr m 32 16 t =
      (lastAttr m 40 8 t).or (if ifaAddress = t then some 32 else none) := by
    rw [lastAttr_cons len₂ (by decide) (by decide), type₂]
    rfl
  have step₃ : lastAttr m 40 8 t =
      (lastAttr m 48 0 t).or (if ifaBroadcast = t then some 40 else none) := by
    rw [lastAttr_cons len₃ (by decide) (by decide), type₃]
    rfl
  rw [step₁, step₂, step₃, lastAttr_nil (by omega), Option.none_or]
  split_ifs <;> rfl

/-- What is shown of a request for an address. -/
def shownAddr (addr : List UInt8) (prefixlen : ℕ) : IfAddr where
  ifaAddr := some (leNat addr)
  ifaLocal := some (leNat addr)
  ifaLabel := none
  interAddr := addr
  localAddr := addr
  prefixlen := prefixlen
  addressNull := false

theorem run_of_holds {ε : Type} {ifaMax n : ℕ} (listed : ifaLabel ≤ ifaMax) (eight : n ≤ 255)
    (size : addr.length = 4) (size' : bcast.length = 4) (len : nlmsgLen m 0 = 48)
    (held : m.Holds 4 (addrBytes ifindex addr bcast n)) :
    (nlGetIfAddr ifaMax : Reading Part ε _).run m =
      some (.ok { value := 0, shown := some (shownAddr addr n) }) := by
  obtain ⟨fixed, own, address, broadcast⟩ := parts_of_holds size held
  -- The structure behind the header gives the family and the prefix length.
  have long : (ifaBytes ifindex n).length = 8 := rfl
  have family : m 16 = 2 := fixed.getElem (i := 0) (by omega)
  have width : (m 17).toNat = n := by
    have stored : m 17 = UInt8.ofNat (toUInt32 n) := fixed.getElem (i := 1) (by omega)
    have whole := toUInt32_of_range (n := n) (by omega) (by omega)
    rw [stored, UInt8.toNat_ofNat']
    omega
  -- The attributes give the address twice.
  obtain ⟨-, -, own_value⟩ := attr_of_holds own (by omega) (by decide)
  obtain ⟨-, -, address_value⟩ := attr_of_holds address (by omega) (by decide)
  rw [size] at own_value address_value
  have entry {t : ℕ} (small : t ≤ ifaLabel) :
      (nlParseRtattr m (fun _ => none) ifaMax 24 ((nlmsgLen m 0 : ℤ) - 24)).2 t =
        if ifaBroadcast = t then some 40 else if ifaAddress = t then some 32
          else if ifaLocal = t then some 24 else none := by
    rw [len, nlParseRtattr_last (by decide) (by omega)]
    exact lastAttr_of_holds size size' own address broadcast t
  rw [run_nlGetIfAddr (by rw [family]; rfl) (by omega) (by omega),
    run_showAddr (entry (by decide)) (entry (by decide)), entry (by decide), own_value,
    address_value, width]
  rfl

end Request

/-- The address that `ip_addr_add` writes is the one that `nl_get_if_addr` reads. -/
theorem addr_roundtrip {env : Env} {fresh answer : Nlmsg} {ifaMax n : ℕ}
    (opened : env.netlinkOpen = 0) (alloc : allocRequest env = .ok fresh)
    (reserved : allocAnswer env = .ok answer) (eight : n ≤ 255) (listed : ifaLabel ≤ ifaMax)
    (ifindex : ℤ) (addr bcast : Memory) :
    ∃ request, ipAddrAddRequest env afInet ifindex addr bcast none n = .ok (request, answer) ∧
      (nlGetIfAddr ifaMax : Reading Part Empty _).run request.nlmsghdr =
        some (.ok { value := 0, shown := some (shownAddr (addr.read 0 4) n) }) := by
  obtain ⟨⟨request, _⟩, built, rfl, draft⟩ :=
    yields_addrAdd opened alloc reserved ifindex addr bcast none n
  have sizes (addr : Memory) : (addr.read 0 4).length = 4 := Memory.read_length
  have len : nlmsgLen request.nlmsghdr 0 = 48 :=
    draft.built.len.trans (by rw [addrBytes_length (sizes addr) (sizes bcast)])
  exact ⟨request, built, run_of_holds listed eight (sizes addr) (sizes bcast) len
    draft.built.holds⟩

theorem addr_roundtrip_loopback :
    ∃ request answer, ipAddrAddRequest plainEnv afInet 1 (fun i => [127, 0, 0, 1].getD i 0)
        (fun _ => 255) none 8 = .ok (request, answer) ∧
      (nlGetIfAddr 8 : Reading Part Empty _).run request.nlmsghdr =
        some (.ok { value := 0, shown := some (shownAddr [127, 0, 0, 1] 8) }) := by
  obtain ⟨request, built, shown⟩ := addr_roundtrip (show plainEnv.netlinkOpen = 0 from rfl) rfl rfl
    (show 8 ≤ 255 by decide) (show ifaLabel ≤ 8 by decide) 1 (fun i => [127, 0, 0, 1].getD i 0)
    (fun _ => 255)
  exact ⟨request, _, built, shown⟩

end LinuxProgram.GetAddr
