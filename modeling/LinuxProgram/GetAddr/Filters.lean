import LinuxProgram.Base.Reading
import LinuxProgram.Netlink.Attributes

/-!
# The filters of `getaddr.c`

`nl_parse_info` hands every message to a filter. `nl_get_if_addr` prints an address and
`nl_get_oif` looks for the default route. Both are written here as programs that read the
message, offset 0 being its header, and each read says which part of the message it is meant
for: the netlink header, the structure behind it, the header of an attribute, or the value of
an attribute. A read that is meant for a part must stay inside it (`Allowed`).

`nl_get_oif` leaves two of its locals uninitialised on some paths; `Stale` is what they
contain then. The program `interface.c` has the same function without the last `printf`, so
the model takes a flag for it.

## Main definitions

* `nlGetIfAddr`, `nlGetOif` — the filters
* `AddrReadable`, `RouteReadable` — the messages they are made for

## Main results

* `filters_safe_iff` — each filter stays inside the parts of the message if and only if the
  message is one it was made for
-/

namespace LinuxProgram.GetAddr

open Base Netlink

/-! ### Constants -/

/-- `IFA_LABEL`. -/
def ifaLabel : ℕ := 3

/-- `RTM_NEWROUTE`. -/
def rtmNewroute : ℕ := 24

/-- `RTN_UNICAST`. -/
def rtnUnicast : ℕ := 1

/-- `RTM_F_CLONED`. -/
def rtmFCloned : ℕ := 0x200

/-- `RTPROT_REDIRECT`. -/
def rtprotRedirect : ℕ := 1

/-- `RTPROT_KERNEL`. -/
def rtprotKernel : ℕ := 2

/-- `RTA_DST`. -/
def rtaDst : ℕ := 1

/-- `RTA_OIF`. -/
def rtaOif : ℕ := 4

/-- `RTA_GATEWAY`. -/
def rtaGateway : ℕ := 5

/-- `sizeof(struct rtmsg)`. -/
def rtmsgSize : ℕ := 12

/-! ### Parts of a message -/

/-- What a read is meant for. -/
inductive Part
  /-- A field of `struct nlmsghdr`. -/
  | header
  /-- A field of the structure behind it, of the given size. -/
  | fixed (size : ℕ)
  /-- A field of a `struct rtattr`. -/
  | attr
  /-- The value of the attribute at the given offset. -/
  | value (rta : ℕ)

/-- The read stays inside the message and inside the part that it is meant for. -/
def Allowed (m : Memory) : Part → ℕ → ℕ → Prop
  | .header, off, n => off + n ≤ nlmsgHdrlen ∧ off + n ≤ nlmsgLen m 0
  | .fixed size, off, n => off + n ≤ nlmsgHdrlen + size ∧ nlmsgHdrlen + size ≤ nlmsgLen m 0
  | .attr, off, n => off + n ≤ nlmsgLen m 0
  | .value rta, off, n => off + n ≤ rta + rtaLen m rta ∧ off + n ≤ nlmsgLen m 0

/-! ### The attribute table -/

section Table

variable {ε : Type}

/-- `memset(tb, 0, sizeof tb); nl_parse_rtattr(tb, max, rta, len);`. -/
def parseRtattr (max : ℤ) (rta : ℕ) (len : ℤ) : Reading Part ε AttrTable := do
  let (_, tb) ← nlParseRtattrWith .attr storeAttr (len.toNat + 1) (fun _ => none) max rta len
  return tb

end Table

/-! ### `nl_get_if_addr` -/

/-- What `nl_get_if_addr` prints. The addresses are also converted by `inet_ntop`, from four
bytes each. -/
structure IfAddr where
  ifaAddr : Option ℕ
  ifaLocal : Option ℕ
  ifaLabel : Option (List UInt8)
  interAddr : List UInt8
  localAddr : List UInt8
  prefixlen : ℕ
  /-- Whether "ifa_addres is null" was printed before. -/
  addressNull : Bool
  deriving DecidableEq, Repr

/-- What a filter returns, and what it has printed. -/
structure Printed where
  value : ℤ
  shown : Option IfAddr
  deriving DecidableEq, Repr

section Address

variable {ε : Type}

/-- `if (rta) x = *(u32 *) RTA_DATA(rta);`, where `x` is uninitialised otherwise. -/
def word : Option ℕ → Reading Part ε (Option ℕ)
  | none => return none
  | some rta => do
    let x ← .num (.value rta) (rta + 4) 4
    return some x

/-- `if (rta) strncpy(label, RTA_DATA(rta), IFNAMSIZ);`. -/
def label : Option ℕ → Reading Part ε (Option (List UInt8))
  | none => return none
  | some rta => do
    let s ← .chars (.value rta) (rta + 4) ifnamsiz
    return some s

/-- `rt_addr_n2a(AF_INET, RTA_PAYLOAD(rta), RTA_DATA(rta), ...)`. The payload size is computed
from the attribute, though nothing uses it. -/
def rtAddrN2a : Option ℕ → Reading Part ε (List UInt8)
  | none => .fault
  | some rta => do
    let _ ← .num .attr rta 2
    .read (.value rta) (rta + 4) 4 fun bytes => return bytes

/-- `if (tb[IFA_ADDRESS] == NULL) tb[IFA_ADDRESS] = tb[IFA_LOCAL];`. -/
def fallBack (tb : AttrTable) : AttrTable :=
  if tb ifaAddress = none then Function.update tb ifaAddress (tb ifaLocal) else tb

/-- The part of `nl_get_if_addr` behind `nl_parse_rtattr`. -/
def showAddr (tb : AttrTable) : Reading Part ε Printed := do
  let tb' := fallBack tb
  let addr ← word (tb' ifaAddress)
  let loal ← word (tb' ifaLocal)
  let name ← label (tb' ifaLabel)
  let interAddr ← rtAddrN2a (tb' ifaAddress)
  let localAddr ← rtAddrN2a (tb' ifaLocal)
  let prefixlen ← .num (.fixed ifaddrmsgSize) 17 1
  let shown : IfAddr :=
    { ifaAddr := addr, ifaLocal := loal, ifaLabel := name, interAddr, localAddr, prefixlen,
      addressNull := (tb ifaAddress).isNone }
  return { value := 0, shown := some shown }

/-- `nl_get_if_addr`, compiled with the given `IFA_MAX`. -/
def nlGetIfAddr (ifaMax : ℕ) : Reading Part ε Printed := do
  let family ← .num (.fixed ifaddrmsgSize) 16 1
  if (family : ℤ) ≠ afInet then return { value := 0, shown := none }
  else do
    let nlmsgLen ← .num .header 0 4
    let len := toInt32 ((nlmsgLen : ℤ) - (nlmsgHdrlen + ifaddrmsgSize))
    if len < 0 then return { value := -1, shown := none }
    else do
      let tb ← parseRtattr ifaMax 24 len
      showAddr tb

end Address

/-! ### `nl_get_oif` -/

/-- What the uninitialised locals of `nl_get_oif` contain. -/
structure Stale where
  index : ℤ
  /-- Whether the pointer `gate` is other than null. It points nowhere. -/
  gate : Bool
  deriving DecidableEq, Repr

/-- What `nl_get_oif` returns, `*arg` afterwards (`none` if `arg` is null), and the route that
it prints. -/
structure Oif where
  value : ℤ
  arg : Option ℤ
  router : Option (ℤ × List UInt8 × List UInt8)
  deriving DecidableEq, Repr

/-- A return that prints nothing. -/
def Oif.plain (value : ℤ) (arg : Option ℤ) : Oif := { value, arg, router := none }

section Route

variable {ε : Type}

/-- `if (rta) index = *(int *) RTA_DATA(rta);`. -/
def oifIndex (stale : Stale) : Option ℕ → Reading Part ε ℤ
  | none => return stale.index
  | some rta => do
    let index ← .num (.value rta) (rta + 4) 4
    return toInt32 index

/-- The characters that `%s` prints of the value of an attribute. No message is longer than
its length field can say. -/
def printed (rta : ℕ) : Reading Part ε (List UInt8) := .text (.value rta) (rta + 4) (2 ^ 32)

/-- What `%s` prints of `dest`. The address `anyaddr` is the empty string. -/
def printDest : Option ℕ → Reading Part ε (List UInt8)
  | none => return []
  | some rta => printed rta

/-- What `%s` prints of `gate`. A null pointer is printed as such. -/
def printGate (stale : Stale) : Option ℕ → Reading Part ε (List UInt8)
  | none => if stale.gate then .fault else return "(null)".toUTF8.toList
  | some rta => printed rta

/-- The part of `nl_get_oif` behind the tests of the header, with or without the last
`printf`. -/
def chooseRoute (prints : Bool) (stale : Stale) (arg : Option ℤ) (tb : AttrTable) :
    Reading Part ε Oif := do
  let index ← oifIndex stale (tb rtaOif)
  if tb rtaDst = none ∧ ((tb rtaGateway).isSome ∨ stale.gate) ∧ arg.isSome then
    return .plain 0 (some index)
  else if prints then do
    let dest ← printDest (tb rtaDst)
    let gate ← printGate stale (tb rtaGateway)
    return { value := 0, arg, router := some (index, dest, gate) }
  else return .plain 0 arg

/-- `nl_get_oif`, compiled with the given `RTA_MAX`. -/
def nlGetOif (prints : Bool) (rtaMax : ℕ) (stale : Stale) (arg : Option ℤ) :
    Reading Part ε Oif := do
  let type ← .num .header 4 2
  if type ≠ rtmNewroute then return .plain 0 arg
  else do
    let rtmType ← .num (.fixed rtmsgSize) 23 1
    if rtmType ≠ rtnUnicast then return .plain 0 arg
    else do
      let _table ← .num (.fixed rtmsgSize) 20 1
      let nlmsgLen ← .num .header 0 4
      let len := toInt32 ((nlmsgLen : ℤ) - (nlmsgHdrlen + rtmsgSize))
      if len < 0 then return .plain (-1) arg
      else do
        let tb ← parseRtattr rtaMax 28 len
        let flags ← .num (.fixed rtmsgSize) 24 4
        if flags &&& rtmFCloned ≠ 0 then return .plain 0 arg
        else do
          let protocol ← .num (.fixed rtmsgSize) 21 1
          if protocol = rtprotRedirect then return .plain 0 arg
          else do
            let protocol ← .num (.fixed rtmsgSize) 21 1
            if protocol = rtprotKernel then return .plain 0 arg
            else do
              let srcLen ← .num (.fixed rtmsgSize) 18 1
              if srcLen ≠ 0 then return .plain 0 arg
              else chooseRoute prints stale arg tb

end Route

/-! ### The table that the filters get -/

section Table

variable {ε : Type} {m : Memory} {max len : ℤ} {rta : ℕ}

/-- The program runs like `nl_parse_rtattr` on an empty table. -/
theorem run_parseRtattr : (parseRtattr max rta len : Reading Part ε AttrTable).run m =
    some (.ok (nlParseRtattr m (fun _ => none) max rta len).2) := by
  rw [parseRtattr, Reading.run_bind_ok run_nlParseRtattrWith_storeAttr]
  rfl

/-- The parser reads headers of the attributes it is given. -/
theorem safe_parseRtattr {allowed : Part → ℕ → ℕ → Prop}
    (inside : ∀ off n : ℕ, (off : ℤ) + n ≤ rta + len → allowed .attr off n)
    (range : len < 2 ^ 31) :
    (parseRtattr max rta len : Reading Part ε AttrTable).Safe allowed m := by
  rw [parseRtattr, Reading.safe_bind]
  refine ⟨?_, fun _ _ => trivial⟩
  exact safe_nlParseRtattrWith stores_storeAttr (fun _ _ _ _ => trivial) inside range
    (Nat.lt_succ_self _)

/-- The attributes it is given lie inside the message. -/
theorem allowed_attr (within : rta + len ≤ nlmsgLen m 0) (off n : ℕ)
    (below : (off : ℤ) + n ≤ rta + len) : Allowed m .attr off n := by
  rw [Allowed]
  omega

end Table

/-! ### Reading an attribute -/

/-- The value of an attribute is a string with its terminator. -/
def TextEnds (m : Memory) (rta : ℕ) : Prop := ∃ i, 4 + i < rtaLen m rta ∧ m (rta + 4 + i) = 0

/-- The value of an attribute is such a string, or has `IFNAMSIZ` bytes. -/
def LabelEnds (m : Memory) (rta : ℕ) : Prop := 4 + ifnamsiz ≤ rtaLen m rta ∨ TextEnds m rta

/-- An attribute with its header and inside the message. -/
def Within (m : Memory) (rta : ℕ) : Prop := 4 ≤ rtaLen m rta ∧ rta + rtaLen m rta ≤ nlmsgLen m 0

section Values

variable {ε : Type} {m : Memory} {rta n : ℕ} {entry : Option ℕ}

theorem rtaLen_lt (m : Memory) (rta : ℕ) : rtaLen m rta < 2 ^ 16 := Memory.u16_lt

/-- Inside an attribute only its own length limits the reads. -/
theorem allowed_value (within : Within m rta) (off n : ℕ) :
    Allowed m (.value rta) off n ↔ off + n ≤ rta + rtaLen m rta := by
  have := within.2
  rw [Allowed]
  omega

theorem safe_printed (within : Within m rta) :
    (printed rta : Reading Part ε _).Safe (Allowed m) m ↔ TextEnds m rta := by
  have short := rtaLen_lt m rta
  rw [printed, Reading.safe_text (fun p => (allowed_value within p 1).trans Nat.succ_le_iff)
    (by omega), TextEnds]
  simp only [Nat.add_assoc, Nat.add_lt_add_iff_left]

theorem run_word : (word entry : Reading Part ε _).run m =
    some (.ok (entry.map fun rta => leNat (m.read (rta + 4) 4))) := by
  cases entry <;> rfl

theorem safe_word (within : ∀ rta ∈ entry, Within m rta) :
    (word entry : Reading Part ε _).Safe (Allowed m) m ↔ ∀ rta ∈ entry, 8 ≤ rtaLen m rta := by
  cases entry with
  | none => simp [word]
  | some rta =>
    rw [word, Reading.safe_num_bind, allowed_value (within rta rfl)]
    simp only [Reading.safe_pure, and_true, Option.mem_some_iff, forall_eq']
    omega

theorem run_label : (label entry : Reading Part ε _).run m =
    some (.ok (entry.map fun rta => (m.read (rta + 4) ifnamsiz).takeWhile (· ≠ 0))) := by
  cases entry with
  | none => rfl
  | some rta => exact Reading.run_bind_ok Reading.run_chars

theorem safe_label (within : ∀ rta ∈ entry, Within m rta) :
    (label entry : Reading Part ε _).Safe (Allowed m) m ↔ ∀ rta ∈ entry, LabelEnds m rta := by
  cases entry with
  | none => simp [label]
  | some rta =>
    rw [label, Reading.safe_bind_ok Reading.run_chars, Reading.safe_chars fun p =>
      (allowed_value (within rta rfl) p 1).trans Nat.succ_le_iff]
    simp only [Reading.safe_pure, and_true, Option.mem_some_iff, forall_eq', LabelEnds, TextEnds,
      ifnamsiz, OfNat.ofNat_ne_zero, false_or, Nat.add_assoc, Nat.add_lt_add_iff_left,
      Nat.add_le_add_iff_left]

theorem run_rtAddrN2a : (rtAddrN2a (some rta) : Reading Part ε _).run m =
    some (.ok (m.read (rta + 4) 4)) := rfl

theorem safe_rtAddrN2a (within : Within m rta) :
    (rtAddrN2a (some rta) : Reading Part ε _).Safe (Allowed m) m ↔ 8 ≤ rtaLen m rta := by
  have header : rta + 2 ≤ nlmsgLen m 0 := by
    have := within.1
    have := within.2
    omega
  rw [rtAddrN2a, Reading.safe_num_bind, Reading.Safe, allowed_value within, Allowed]
  simp only [header, Reading.safe_pure, true_and, and_true]
  omega

end Values

/-! ### Where `nl_get_if_addr` reads -/

section Address

variable {ε : Type} {m : Memory} {tb : AttrTable}

theorem fallBack_address : fallBack tb ifaAddress = (tb ifaAddress).or (tb ifaLocal) := by
  rw [fallBack]
  cases absent : tb ifaAddress <;> simp [absent]

theorem fallBack_of_ne {t : ℕ} (other : t ≠ ifaAddress) : fallBack tb t = tb t := by
  rw [fallBack]
  split_ifs
  · exact Function.update_of_ne other ..
  · rfl

/-- Behind the parser the filter needs a local address, and room for every value that it
reads. -/
theorem safe_showAddr (within : ∀ t, ∀ rta ∈ tb t, Within m rta)
    (header : nlmsgHdrlen + ifaddrmsgSize ≤ nlmsgLen m 0) :
    (showAddr tb : Reading Part ε _).Safe (Allowed m) m ↔
      (∃ rta ∈ tb ifaLocal, 8 ≤ rtaLen m rta) ∧ (∀ rta ∈ tb ifaAddress, 8 ≤ rtaLen m rta) ∧
        ∀ rta ∈ tb ifaLabel, LabelEnds m rta := by
  have own : fallBack tb ifaLocal = tb ifaLocal := fallBack_of_ne (by decide)
  have named : fallBack tb ifaLabel = tb ifaLabel := fallBack_of_ne (by decide)
  have address : ∀ rta ∈ (tb ifaAddress).or (tb ifaLocal), Within m rta := by
    intro rta mem
    rcases Option.or_eq_some_iff.mp mem with found | ⟨-, found⟩
    · exact within _ rta found
    · exact within _ rta found
  rw [showAddr, Reading.safe_bind_ok run_word, Reading.safe_bind_ok run_word,
    Reading.safe_bind_ok run_label, own, named, fallBack_address, safe_word address,
    safe_word (within _), safe_label (within _)]
  cases loc : tb ifaLocal with
  | none =>
    -- The second conversion follows a null pointer, if the first does not.
    refine iff_of_false ?_ (by simp)
    rintro ⟨-, -, -, rest⟩
    rw [Option.or_none] at rest
    cases first : tb ifaAddress with
    | none =>
      rw [first] at rest
      cases rest
    | some rta =>
      rw [first, Reading.safe_bind_ok run_rtAddrN2a] at rest
      cases rest.2
  | some rta =>
    have fixed : Allowed m (.fixed ifaddrmsgSize) 17 1 := ⟨by decide, header⟩
    cases first : tb ifaAddress with
    | none =>
      simp only [Option.none_or, Reading.safe_bind_ok run_rtAddrN2a, Reading.safe_num_bind,
        safe_rtAddrN2a (within _ rta loc), fixed, Reading.safe_pure, Option.mem_some_iff,
        forall_eq', exists_eq_left', Option.not_mem_none, false_imp_iff, forall_const]
      tauto
    | some rta' =>
      simp only [Option.some_or, Reading.safe_bind_ok run_rtAddrN2a, Reading.safe_num_bind,
        safe_rtAddrN2a (within _ rta loc), safe_rtAddrN2a (within _ rta' first), fixed,
        Reading.safe_pure, Option.mem_some_iff, forall_eq', exists_eq_left']
      tauto

/-- The messages that `nl_get_if_addr` is made for: the structure `ifaddrmsg` is complete, and
if it is one for IPv4, there is a local address of four bytes, an address of four bytes if any,
and a label that ends within its attribute or within `IFNAMSIZ` bytes. A message of more bytes
than an `int` can count is not looked at. -/
def AddrReadable (m : Memory) : Prop :=
  24 ≤ nlmsgLen m 0 ∧ ((m 16).toNat = afInet → nlmsgLen m 0 < 2 ^ 31 + 24 →
    (∃ rta ∈ lastAttr m 24 (nlmsgLen m 0 - 24) ifaLocal, 8 ≤ rtaLen m rta) ∧
      (∀ rta ∈ lastAttr m 24 (nlmsgLen m 0 - 24) ifaAddress, 8 ≤ rtaLen m rta) ∧
      ∀ rta ∈ lastAttr m 24 (nlmsgLen m 0 - 24) ifaLabel, LabelEnds m rta)

/-- The attributes that the parser files lie within the message. -/
theorem table_within {max len : ℤ} {base : ℕ} (inside : base + len ≤ nlmsgLen m 0)
    (positive : 0 ≤ len) (range : len < 2 ^ 31) (t : ℕ) :
    ∀ rta ∈ (nlParseRtattr m (fun _ => none) max base len).2 t, Within m rta := by
  intro rta filed
  obtain ⟨-, header, ends⟩ := attribute_inside (nlParseRtattr_mem range filed)
  exact ⟨header, by omega⟩

theorem safe_nlGetIfAddr {ifaMax : ℕ} (listed : ifaLabel ≤ ifaMax) :
    (nlGetIfAddr ifaMax : Reading Part ε _).Safe (Allowed m) m ↔ AddrReadable m := by
  have word : leNat (m.read 0 4) = nlmsgLen m 0 := rfl
  have small : nlmsgLen m 0 < 2 ^ 32 := Memory.u32_lt
  have fixed : Allowed m (.fixed ifaddrmsgSize) 16 1 ↔ 24 ≤ nlmsgLen m 0 := by
    simp [Allowed, nlmsgHdrlen, ifaddrmsgSize]
  have area : (nlmsgHdrlen + ifaddrmsgSize : ℤ) = 24 := rfl
  rw [nlGetIfAddr, Reading.safe_num_bind, Reading.safe_ite, Reading.safe_num_bind,
    Reading.safe_ite, Memory.leNat_read_one, word, AddrReadable, fixed]
  refine and_congr_right fun header => ?_
  by_cases inet : ((m 16).toNat : ℤ) = afInet
  · have head : Allowed m .header 0 4 := ⟨by decide, by omega⟩
    rw [if_neg (not_not.mpr inet), and_iff_right head, imp_iff_right inet]
    by_cases large : 2 ^ 31 + 24 ≤ nlmsgLen m 0
    · rw [if_pos ((toInt32_neg_iff (by omega) (by omega)).mpr (by omega))]
      exact iff_of_true trivial fun _ => by omega
    · have len : toInt32 ((nlmsgLen m 0 : ℤ) - (nlmsgHdrlen + ifaddrmsgSize)) =
          (nlmsgLen m 0 : ℤ) - 24 := toInt32_of_range (by omega) (by omega)
      have room : ((nlmsgLen m 0 : ℤ) - 24).toNat = nlmsgLen m 0 - 24 := by omega
      have entry {t : ℕ} (small : t ≤ ifaLabel) :
          (nlParseRtattr m (fun _ => none) ifaMax 24 (nlmsgLen m 0 - 24)).2 t =
            lastAttr m 24 (nlmsgLen m 0 - 24) t := by
        rw [nlParseRtattr_last (by omega) (by omega), room]
      rw [len, if_neg (by omega), imp_iff_right (by omega), Reading.safe_bind_ok run_parseRtattr,
        and_iff_right (safe_parseRtattr (allowed_attr (by omega)) (by omega)),
        safe_showAddr (table_within (by omega) (by omega) (by omega)) header,
        entry (by decide), entry (by decide), entry (by decide)]
  · rw [if_pos inet]
    exact iff_of_true trivial fun is_inet => absurd is_inet inet

end Address

/-! ### Where `nl_get_oif` reads -/

/-- The route can be printed, whatever `gate` contains: either it is not, or both addresses are
strings. -/
def Printable (m : Memory) (arg : Option ℤ) (dst gateway : Option ℕ) : Prop :=
  dst = none ∧ arg.isSome ∨ (∃ rta ∈ gateway, TextEnds m rta) ∧ ∀ rta ∈ dst, TextEnds m rta

section Route

variable {ε : Type} {m : Memory} {tb : AttrTable} {stale : Stale} {entry : Option ℕ}

theorem run_oifIndex : (oifIndex stale entry : Reading Part ε _).run m =
    some (.ok (entry.elim stale.index fun rta => m.i32 (rta + 4))) := by
  cases entry with
  | none => rfl
  | some rta => rw [oifIndex, Reading.run_num_bind, Reading.run_pure, Option.elim_some, Memory.i32,
      Memory.u32]

theorem safe_oifIndex (within : ∀ rta ∈ entry, Within m rta) :
    (oifIndex stale entry : Reading Part ε _).Safe (Allowed m) m ↔
      ∀ rta ∈ entry, 8 ≤ rtaLen m rta := by
  cases entry with
  | none => simp [oifIndex]
  | some rta =>
    rw [oifIndex, Reading.safe_num_bind, allowed_value (within rta rfl)]
    simp only [Reading.safe_pure, and_true, Option.mem_some_iff, forall_eq']
    omega

/-- Printing needs strings, and a `gate` that is initialised or null. -/
theorem safe_printRoute {allowed : Part → ℕ → ℕ → Prop} {E : ℕ → Prop} {dst gateway : Option ℕ}
    (strings : ∀ rta, rta ∈ dst ∨ rta ∈ gateway →
      ((printed rta : Reading Part ε _).Safe allowed m ↔ E rta)) {index : ℤ} {arg : Option ℤ} :
    (do
      let dest ← printDest dst
      let gate ← printGate stale gateway
      return { value := 0, arg, router := some (index, dest, gate) } : Reading Part ε Oif).Safe
        allowed m ↔
      (∀ rta ∈ dst, E rta) ∧ gateway.elim (stale.gate = false) E := by
  have gate : ∀ dest, (do
      let gate ← printGate stale gateway
      return { value := 0, arg, router := some (index, dest, gate) } : Reading Part ε Oif).Safe
        allowed m ↔ gateway.elim (stale.gate = false) E := by
    intro dest
    rw [Reading.safe_bind]
    simp only [Reading.safe_pure, implies_true, and_true]
    cases gateway with
    | none =>
      rw [printGate, Reading.safe_ite, Option.elim_none]
      cases stale.gate <;> simp [Reading.Safe]
    | some rta => exact strings rta (.inr rfl)
  rw [Reading.safe_bind]
  cases dst with
  | none => simp [printDest, gate]
  | some rta =>
    have dest := strings rta (.inl rfl)
    rw [printDest, dest]
    simp only [gate, Option.mem_some_iff, forall_eq']
    refine and_congr_right fun ends => ?_
    exact ⟨fun rest => rest _ (Reading.run_text (dest.mpr ends)), fun rest _ _ => rest⟩

theorem safe_chooseRoute (within : ∀ t, ∀ rta ∈ tb t, Within m rta) {arg : Option ℤ} :
    (∀ stale, (chooseRoute true stale arg tb : Reading Part ε _).Safe (Allowed m) m) ↔
      (∀ rta ∈ tb rtaOif, 8 ≤ rtaLen m rta) ∧ Printable m arg (tb rtaDst) (tb rtaGateway) := by
  have strings : ∀ rta, rta ∈ tb rtaDst ∨ rta ∈ tb rtaGateway →
      ((printed rta : Reading Part ε _).Safe (Allowed m) m ↔ TextEnds m rta) := by
    rintro rta (dest | gate)
    · exact safe_printed (within _ rta dest)
    · exact safe_printed (within _ rta gate)
  simp only [chooseRoute, Reading.safe_bind_ok run_oifIndex, safe_oifIndex (within _),
    Reading.safe_ite, if_true, Reading.safe_pure, safe_printRoute strings, Printable]
  constructor
  · intro safe
    -- A `gate` that is not null shows what must be initialised.
    obtain ⟨room, rest⟩ := safe { index := 0, gate := true }
    refine ⟨room, ?_⟩
    split_ifs at rest with assigned
    · exact .inl ⟨assigned.1, assigned.2.2⟩
    · obtain ⟨dest, gate⟩ := rest
      cases gateway : tb rtaGateway with
      | none => simp [gateway] at gate
      | some rta => exact .inr ⟨⟨rta, rfl, by simpa [gateway] using gate⟩, dest⟩
  · rintro ⟨room, printable⟩ stale
    refine ⟨room, ?_⟩
    split_ifs with assigned
    rcases printable with ⟨dst, pointer⟩ | ⟨⟨rta, gateway, gate⟩, dest⟩
    · -- Nothing is assigned, so `gate` is null.
      cases gateway : tb rtaGateway with
      | none => simp_all
      | some rta => exact absurd ⟨dst, .inl (by rw [gateway]; rfl), pointer⟩ assigned
    · rw [Option.mem_def.mp gateway]
      exact ⟨dest, gate⟩

/-- The structure `rtmsg` passes the tests of `nl_get_oif`. -/
def Passes (m : Memory) : Prop :=
  (m 23).toNat = rtnUnicast ∧ m.u32 24 &&& rtmFCloned = 0 ∧ (m 21).toNat ≠ rtprotRedirect ∧
    (m 21).toNat ≠ rtprotKernel ∧ (m 18).toNat = 0

instance (m : Memory) : Decidable (Passes m) := inferInstanceAs (Decidable (_ ∧ _ ∧ _ ∧ _ ∧ _))

/-- The messages that `nl_get_oif` is made for: the structure `rtmsg` of a route is complete,
and if it passes the tests, an output interface has four bytes and the route can be printed. A
message of more bytes than an `int` can count is not looked at. -/
def RouteReadable (m : Memory) (arg : Option ℤ) : Prop :=
  nlmsgType m 0 = rtmNewroute → 28 ≤ nlmsgLen m 0 ∧ (nlmsgLen m 0 < 2 ^ 31 + 28 → Passes m →
    (∀ rta ∈ lastAttr m 28 (nlmsgLen m 0 - 28) rtaOif, 8 ≤ rtaLen m rta) ∧
      Printable m arg (lastAttr m 28 (nlmsgLen m 0 - 28) rtaDst)
        (lastAttr m 28 (nlmsgLen m 0 - 28) rtaGateway))

/-- The table of `nl_get_oif`. -/
def routeTable (rtaMax : ℕ) (m : Memory) : AttrTable :=
  (nlParseRtattr m (fun _ => none) rtaMax 28 ((nlmsgLen m 0 : ℤ) - 28)).2

theorem routeTable_apply {rtaMax t : ℕ} (listed : t ≤ rtaMax) (header : 28 ≤ nlmsgLen m 0)
    (range : nlmsgLen m 0 < 2 ^ 31 + 28) :
    routeTable rtaMax m t = lastAttr m 28 (nlmsgLen m 0 - 28) t := by
  have room : ((nlmsgLen m 0 : ℤ) - 28).toNat = nlmsgLen m 0 - 28 := by omega
  rw [routeTable, nlParseRtattr_last (by omega) (by omega), room]

theorem safe_nlGetOif_tests {prints : Bool} {rtaMax : ℕ} {arg : Option ℤ}
    (header : nlmsgHdrlen ≤ nlmsgLen m 0) :
    (nlGetOif prints rtaMax stale arg : Reading Part ε _).Safe (Allowed m) m ↔
      (nlmsgType m 0 = rtmNewroute → 28 ≤ nlmsgLen m 0 ∧
        (nlmsgLen m 0 < 2 ^ 31 + 28 → Passes m →
          (chooseRoute prints stale arg (routeTable rtaMax m) : Reading Part ε _).Safe
            (Allowed m) m)) := by
  have small : nlmsgLen m 0 < 2 ^ 32 := Memory.u32_lt
  have type : leNat (m.read 4 2) = nlmsgType m 0 := rfl
  have word : leNat (m.read 0 4) = nlmsgLen m 0 := rfl
  have flags : leNat (m.read 24 4) = m.u32 24 := rfl
  have area : (nlmsgHdrlen + rtmsgSize : ℤ) = 28 := rfl
  have head {off n : ℕ} (inside : off + n ≤ nlmsgHdrlen) : Allowed m .header off n :=
    ⟨inside, by omega⟩
  rw [nlGetOif, Reading.safe_num_bind, Reading.safe_ite, type, and_iff_right (head (by decide))]
  by_cases route : nlmsgType m 0 = rtmNewroute
  swap
  · rw [if_pos route]
    exact iff_of_true trivial fun is_route => absurd is_route route
  rw [if_neg (not_not.mpr route), imp_iff_right route, Reading.safe_num_bind,
    Memory.leNat_read_one]
  by_cases complete : 28 ≤ nlmsgLen m 0
  swap
  · exact iff_of_false (fun safe => complete safe.1.2) fun readable => complete readable.1
  have fixed {off n : ℕ} (inside : off + n ≤ 28) : Allowed m (.fixed rtmsgSize) off n :=
    ⟨inside, complete⟩
  rw [and_iff_right (fixed (by decide)), and_iff_right complete, Reading.safe_ite]
  by_cases unicast : (m 23).toNat = rtnUnicast
  swap
  · have stopped : ¬ Passes m := fun passes => unicast passes.1
    simp only [if_pos unicast, Reading.safe_pure, stopped, false_implies, implies_true]
  rw [if_neg (not_not.mpr unicast), Reading.safe_num_bind, and_iff_right (fixed (by decide)),
    Reading.safe_num_bind, and_iff_right (head (by decide)), word, area, Reading.safe_ite]
  by_cases large : 2 ^ 31 + 28 ≤ nlmsgLen m 0
  · rw [if_pos ((toInt32_neg_iff (by omega) (by omega)).mpr (by omega))]
    simp only [Reading.safe_pure, Nat.not_lt.mpr large, false_implies]
  -- The attributes are parsed before the other tests.
  rw [toInt32_of_range (n := (nlmsgLen m 0 : ℤ) - 28) (by omega) (by omega), if_neg (by omega),
    imp_iff_right (by omega), Reading.safe_bind_ok run_parseRtattr,
    and_iff_right (safe_parseRtattr (allowed_attr (by omega)) (by omega)), ← routeTable]
  simp only [Reading.safe_num_bind, Reading.safe_ite, Reading.safe_pure,
    Memory.leNat_read_one, flags, Passes,
    unicast, true_and, fixed, Nat.reduceAdd, Nat.reduceLeDiff]
  split_ifs <;> simp_all

theorem safe_nlGetOif {rtaMax : ℕ} {arg : Option ℤ} (listed : rtaGateway ≤ rtaMax)
    (header : nlmsgHdrlen ≤ nlmsgLen m 0) :
    (∀ stale, (nlGetOif true rtaMax stale arg : Reading Part ε _).Safe (Allowed m) m) ↔
      RouteReadable m arg := by
  have choose (complete : 28 ≤ nlmsgLen m 0) (range : nlmsgLen m 0 < 2 ^ 31 + 28) :
      (∀ stale, (chooseRoute true stale arg (routeTable rtaMax m) : Reading Part ε _).Safe
        (Allowed m) m) ↔
      (∀ rta ∈ lastAttr m 28 (nlmsgLen m 0 - 28) rtaOif, 8 ≤ rtaLen m rta) ∧
        Printable m arg (lastAttr m 28 (nlmsgLen m 0 - 28) rtaDst)
          (lastAttr m 28 (nlmsgLen m 0 - 28) rtaGateway) := by
    have entry {t : ℕ} (small : t ≤ rtaGateway) :=
      routeTable_apply (small.trans listed) complete range
    have within : ∀ t, ∀ rta ∈ routeTable rtaMax m t, Within m rta :=
      table_within (by omega) (by omega) (by omega)
    rw [safe_chooseRoute within, entry (by decide), entry (by decide), entry (by decide)]
  -- The tests do not depend on what the variables held before; only the choice does.
  have tested {route complete range passes chosen : Prop} {safe : Stale → Prop}
      (choose : complete → range → ((∀ stale, safe stale) ↔ chosen)) :
      (∀ stale, route → complete ∧ (range → passes → safe stale)) ↔
        (route → complete ∧ (range → passes → chosen)) := by
    constructor
    · intro safe is_route
      have is_complete := (safe { index := 0, gate := true } is_route).1
      refine ⟨is_complete, fun in_range pass => (choose is_complete in_range).mp fun stale => ?_⟩
      exact (safe stale is_route).2 in_range pass
    · intro readable stale is_route
      obtain ⟨is_complete, rest⟩ := readable is_route
      exact ⟨is_complete, fun in_range pass =>
        (choose is_complete in_range).mpr (rest in_range pass) stale⟩
  simp only [safe_nlGetOif_tests header, RouteReadable]
  exact tested choose

end Route

/-- `nl_get_if_addr` and `nl_get_oif` stay inside the parts of a message that their reads are
meant for, and follow no null pointer, if and only if the message is one that they are made
for. -/
theorem filters_safe_iff {ε : Type} {m : Memory} {ifaMax rtaMax : ℕ} (label : ifaLabel ≤ ifaMax)
    (gateway : rtaGateway ≤ rtaMax) (header : nlmsgHdrlen ≤ nlmsgLen m 0) :
    ((nlGetIfAddr ifaMax : Reading Part ε _).Safe (Allowed m) m ↔ AddrReadable m) ∧
      ∀ arg, (∀ stale, (nlGetOif true rtaMax stale arg : Reading Part ε _).Safe (Allowed m) m) ↔
        RouteReadable m arg :=
  ⟨safe_nlGetIfAddr label, fun _ => safe_nlGetOif gateway header⟩

/-- The bytes of an address message for IPv4 with one attribute, and zeros behind them. -/
def oneAttr (type : ℕ) : Memory :=
  Memory.write (fun _ => 0) 0 (leBytes 4 32 ++ leBytes 2 20 ++ List.replicate 10 0 ++
    [2, 24, 0, 0, 1, 0, 0, 0] ++ leBytes 2 8 ++ leBytes 2 type ++ [127, 0, 0, 1])

/-- Its only attribute is the last of its type. -/
theorem lastAttr_oneAttr (type : ℕ) (len : nlmsgLen (oneAttr type) 0 = 32)
    (size : rtaLen (oneAttr type) 24 = 8) (t : ℕ) :
    lastAttr (oneAttr type) 24 (nlmsgLen (oneAttr type) 0 - 24) t =
      if rtaType (oneAttr type) 24 = t then some 24 else none := by
  rw [len, lastAttr_cons size (by decide) (by decide), show 32 - 24 - alignUp 8 = 0 from rfl,
    lastAttr_nil (by omega), Option.none_or]

theorem filters_safe_iff_local :
    nlmsgHdrlen ≤ nlmsgLen (oneAttr ifaLocal) 0 ∧
      (nlGetIfAddr 8 : Reading Part Empty _).Safe (Allowed (oneAttr ifaLocal)) (oneAttr ifaLocal) ∧
      ∀ stale, (nlGetOif true 8 stale none : Reading Part Empty _).Safe
        (Allowed (oneAttr ifaLocal)) (oneAttr ifaLocal) := by
  have header : nlmsgHdrlen ≤ nlmsgLen (oneAttr ifaLocal) 0 := by decide
  have last := lastAttr_oneAttr ifaLocal (by decide) (by decide)
  have type : rtaType (oneAttr ifaLocal) 24 = ifaLocal := by decide
  obtain ⟨address, route⟩ := filters_safe_iff (ε := Empty) (show ifaLabel ≤ 8 by decide)
    (show rtaGateway ≤ 8 by decide) header
  refine ⟨header, address.mpr ⟨by decide, fun _ _ => ?_⟩, (route none).mpr fun is_route => ?_⟩
  · rw [last, last, last, type]
    refine ⟨⟨24, rfl, by decide⟩, ?_, ?_⟩
    · rintro rta ⟨⟩
    · rintro rta ⟨⟩
  · exact absurd is_route (by decide)

/-- A route message that ends with its header. -/
def bareRoute : Memory := Memory.write (fun _ => 0) 0 (leBytes 4 16 ++ leBytes 2 rtmNewroute)

/-- An IPv4 address without `IFA_LOCAL` makes `nl_get_if_addr` follow a null pointer, and
`nl_get_oif` reads `rtm_type` before it knows that the message contains it. -/
theorem filters_unsafe :
    ¬ (nlGetIfAddr 8 : Reading Part Empty _).Safe (Allowed (oneAttr ifaAddress))
        (oneAttr ifaAddress) ∧
      ¬ (nlGetOif true 8 { index := 0, gate := false } none : Reading Part Empty _).Safe
        (Allowed bareRoute) bareRoute := by
  have last := lastAttr_oneAttr ifaAddress (by decide) (by decide)
  have type : rtaType (oneAttr ifaAddress) 24 = ifaAddress := by decide
  constructor
  · rw [safe_nlGetIfAddr (show ifaLabel ≤ 8 by decide)]
    rintro ⟨-, readable⟩
    obtain ⟨⟨rta, found, -⟩, -⟩ := readable (by decide) (by decide)
    rw [last, type] at found
    cases found
  · rw [safe_nlGetOif_tests (show nlmsgHdrlen ≤ nlmsgLen bareRoute 0 by decide)]
    intro readable
    exact absurd (readable (by decide)).1 (by decide)

end LinuxProgram.GetAddr
