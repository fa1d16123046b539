import LinuxProgram.GetAddr.Filters

/-!
# The attribute table of `interface.c`

The filter `nl_get_link` of `get_interface/interface.c` builds a table of the attributes of a
link message, to print the name of the interface. It was made from the filter for addresses.
The parser starts behind a `struct ifaddrmsg`, which is eight bytes shorter than the
`struct ifinfomsg` of a link message, and the length that it gets is uninitialised, since its
computation is disabled. So it starts at `ifi_flags` and takes the flags for an attribute
header.

`linkTable_exact` says for which messages the table comes out right all the same: those that
have no attribute the table has room for, and in which the parser finds none either.
-/

namespace LinuxProgram.GetInterface

open Base Netlink GetAddr

/-- What `nl_get_link` returns; the table that it builds and the two names that it prints,
unless the address family stops it. A name is `none` if nothing was stored for it. -/
structure Link where
  value : ℤ
  table : Option AttrTable
  indexName : Option (List UInt8)
  name : Option (List UInt8)

/-- `nl_get_link`, compiled with the given `IFA_MAX`. The variable `len` is uninitialised, and
`known` is what `if_indextoname` stores for an index. -/
def nlGetLink {ε : Type} (ifaMax : ℕ) (known : ℕ → Option (List UInt8)) (len : ℤ) :
    Reading Part ε Link := do
  let family ← .num (.fixed ifinfomsgSize) 16 1
  if family ≠ afUnspec then return { value := 0, table := none, indexName := none, name := none }
  else do
    let index ← .num (.fixed ifinfomsgSize) 20 4
    -- `IFA_RTA(ifa)` skips a `struct ifaddrmsg`.
    let tb ← parseRtattr ifaMax (nlmsgHdrlen + ifaddrmsgSize) len
    let name ← label (tb iflaIfname)
    return { value := 0, table := some tb, indexName := known index, name := name.or (known index) }

/-- A link message: a complete `struct ifinfomsg` with family `AF_UNSPEC`, then attributes up to
the end. Its length is counted by an `int`, as `NLMSG_OK` does. -/
structure LinkMessage where
  mem : Memory
  header : 32 ≤ nlmsgLen mem 0
  counted : nlmsgLen mem 0 < 2 ^ 31
  unspec : (mem 16).toNat = afUnspec
  filled : Filled mem 32 (nlmsgLen mem 0 - 32)

/-- The last attribute of a type. -/
def LinkMessage.last (x : LinkMessage) (t : ℕ) : Option ℕ :=
  lastAttr x.mem 32 (nlmsgLen x.mem 0 - 32) t

/-- Whatever `len` contains, the table has the last attribute of each type. -/
def Tabulates (ifaMax : ℕ) (x : LinkMessage) : Prop :=
  ∀ (known : ℕ → Option (List UInt8)) (len : ℤ), -2 ^ 31 ≤ len → len < 2 ^ 31 →
    ∃ link tb, (nlGetLink ifaMax known len : Reading Part Empty Link).run x.mem = some (.ok link) ∧
      link.table = some tb ∧ ∀ t ≤ ifaMax, tb t = x.last t

section Table

variable {ifaMax : ℕ} {x : LinkMessage}

/-- The table of `nl_get_link`. -/
theorem run_nlGetLink (ifaMax : ℕ) (x : LinkMessage) (known : ℕ → Option (List UInt8)) (len : ℤ) :
    ∃ link, (nlGetLink ifaMax known len : Reading Part Empty Link).run x.mem = some (.ok link) ∧
      link.table = some (nlParseRtattr x.mem (fun _ => none) ifaMax 24 len).2 := by
  have byte : leNat (x.mem.read 16 1) = afUnspec := by
    rw [Memory.leNat_read_one]
    exact_mod_cast x.unspec
  rw [nlGetLink, Reading.run_num_bind, Reading.run_ite, byte, if_neg (not_not.mpr rfl),
    Reading.run_num_bind, Reading.run_bind_ok run_parseRtattr, Reading.run_bind_ok run_label]
  exact ⟨_, rfl, rfl⟩

/-- The table holds the attributes that start at `ifi_flags`. -/
theorem tabulates_iff : Tabulates ifaMax x ↔ ∀ len : ℤ, -2 ^ 31 ≤ len → len < 2 ^ 31 →
    ∀ t ≤ ifaMax, lastAttr x.mem 24 len.toNat t = x.last t := by
  constructor
  · intro tabulates len lower upper t listed
    obtain ⟨link, tb, ran, built, right⟩ := tabulates (fun _ => none) len lower upper
    obtain ⟨link', ran', built'⟩ := run_nlGetLink ifaMax x (fun _ => none) len
    obtain rfl : link = link' := Except.ok.inj (Option.some.inj (ran.symm.trans ran'))
    obtain rfl := Option.some.inj (built.symm.trans built')
    rw [← right t listed, nlParseRtattr_last upper (by exact_mod_cast listed)]
  · intro right known len lower upper
    obtain ⟨link, ran, built⟩ := run_nlGetLink ifaMax x known len
    refine ⟨link, _, ran, built, fun t listed => ?_⟩
    rw [nlParseRtattr_last upper (by exact_mod_cast listed), right len lower upper t listed]

end Table

/-- No attribute has a type up to the bound if and only if there is no last one of any. -/
theorem types_above_iff {m : Memory} {p room max : ℕ} :
    (∀ t ≤ max, lastAttr m p room t = none) ↔ ∀ rta ∈ attributes m p room, max < rtaType m rta := by
  simp only [lastAttr_eq_none]
  constructor
  · intro absent rta mem
    by_contra small
    exact absent _ (Nat.le_of_not_lt small) rta mem rfl
  · intro above t small rta mem same
    have := above rta mem
    omega

/-- The table of `nl_get_link` is right for every value of `len` if and only if the message has
no attribute that the table has room for, and none of the headers that the parser takes for
attributes, from `ifi_flags` on, has such a type. -/
theorem linkTable_exact (ifaMax : ℕ) (x : LinkMessage) :
    Tabulates ifaMax x ↔
      (∀ rta ∈ attributes x.mem 32 (nlmsgLen x.mem 0 - 32), ifaMax < rtaType x.mem rta) ∧
        ∀ rta ∈ attributes x.mem 24 (2 ^ 31 - 1), ifaMax < rtaType x.mem rta := by
  rw [tabulates_iff, ← types_above_iff, ← types_above_iff]
  constructor
  · intro right
    -- With `len` zero the table stays empty, with the largest `len` it is as full as it gets.
    have absent : ∀ t ≤ ifaMax, x.last t = none := by
      intro t listed
      rw [← right 0 (by decide) (by decide) t listed]
      exact lastAttr_nil (by omega)
    refine ⟨absent, fun t listed => ?_⟩
    exact (right (2 ^ 31 - 1) (by decide) (by decide) t listed).trans (absent t listed)
  · rintro ⟨absent, none_found⟩ len lower upper t listed
    rw [LinkMessage.last, absent t listed, lastAttr_eq_none]
    intro rta mem
    exact lastAttr_eq_none.mp (none_found t listed) rta (attributes_mono (by omega) mem)

/-! ### An interface with a name -/

/-- The message for an interface with the name `eth0` that is up and running. -/
def linkMem : Memory :=
  Memory.write (fun _ => 0) 0 (leBytes 4 44 ++ leBytes 2 16 ++ List.replicate 10 0 ++
    [0, 0, 1, 0, 2, 0, 0, 0, 0x43, 0x10, 0, 0, 0, 0, 0, 0] ++
    [9, 0, 3, 0, 0x65, 0x74, 0x68, 0x30, 0, 0, 0, 0])

def linkMessage : LinkMessage where
  mem := linkMem
  header := by decide
  counted := by decide
  unspec := by decide
  filled := filled_cons (n := 9) (by decide) (by decide) (by decide) filled_zero

/-- Even with the length of the attributes in `len`, the table has no name, since the flags are
taken for a header that announces 4163 bytes. -/
theorem link_name_missed :
    linkMessage.last iflaIfname = some 32 ∧
      (nlParseRtattr linkMem (fun _ => none) 8 24 12).2 iflaIfname = none ∧
      ¬ Tabulates 8 linkMessage := by
  have named : linkMessage.last iflaIfname = some 32 := by
    rw [LinkMessage.last, show nlmsgLen linkMessage.mem 0 - 32 = 12 by decide,
      lastAttr_cons (n := 9) (by decide) (by decide) (by decide), lastAttr_nil (by decide)]
    decide
  have missed : lastAttr linkMem 24 12 iflaIfname = none := lastAttr_nil (by decide)
  refine ⟨named, ?_, fun tabulates => ?_⟩
  · rw [nlParseRtattr_last (by decide) (by decide)]
    exact missed
  · have right := tabulates_iff.mp tabulates 12 (by decide) (by decide) iflaIfname (by decide)
    rw [named] at right
    exact absurd (missed.symm.trans right) (by decide)

end LinuxProgram.GetInterface
