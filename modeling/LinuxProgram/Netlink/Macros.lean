import LinuxProgram.Base.Loops
import LinuxProgram.Base.Memory
import Mathlib.Tactic.Linarith

/-!
# The macros of the netlink headers

Field access and the two iteration macros of `<linux/netlink.h>` and
`<linux/rtnetlink.h>`, on the bytes of a block. A pointer into the block is its
offset. The remaining length of an iteration is an `int`; the advance subtracts
an unsigned size from it and stores the result back, and both conversions are
written out.

`nlmsgCursor` and `rtaCursor` are the two loops. Each step is exact while the
remaining length is an `int`: see `nlmsgCursor_next` and `rtaCursor_next`.
-/

namespace LinuxProgram.Netlink

open Base

/-! ### Message headers -/

/-- `NLMSG_HDRLEN`, also `sizeof(struct nlmsghdr)`. -/
def nlmsgHdrlen : ℕ := 16

/-- `NLMSG_LENGTH(sizeof(struct nlmsgerr))`: a header, the error code and the
header of the request that failed. -/
def nlmsgerrLength : ℕ := 36

/-- `NLMSG_ERROR`. -/
def nlmsgError : ℕ := 2

/-- `NLMSG_DONE`. -/
def nlmsgDone : ℕ := 3

/-- `NLM_F_MULTI`. -/
def nlmFMulti : ℕ := 2

/-- `EINTR`. -/
def eintr : ℕ := 4

/-- `EAGAIN`, also `EWOULDBLOCK`. -/
def eagain : ℕ := 11

/-- `h->nlmsg_len`. -/
def nlmsgLen (m : Memory) (h : ℕ) : ℕ := m.u32 h

/-- `h->nlmsg_type`. -/
def nlmsgType (m : Memory) (h : ℕ) : ℕ := m.u16 (h + 4)

/-- `h->nlmsg_flags`. -/
def nlmsgFlags (m : Memory) (h : ℕ) : ℕ := m.u16 (h + 6)

/-- `h->nlmsg_pid`. -/
def nlmsgPid (m : Memory) (h : ℕ) : ℕ := m.u32 (h + 12)

/-- `((struct nlmsgerr *) NLMSG_DATA(h))->error`. -/
def nlmsgerrError (m : Memory) (h : ℕ) : ℤ := m.i32 (h + 16)

/-- `NLMSG_OK(h, len)`. The last comparison is unsigned. -/
def nlmsgOk (m : Memory) (h : ℕ) (len : ℤ) : Bool :=
  decide (16 ≤ len) && decide (16 ≤ nlmsgLen m h) && decide (nlmsgLen m h ≤ toUInt32 len)

/-- `NLMSG_NEXT(h, len)`: the next header and the length left for it. -/
def nlmsgNext (m : Memory) (h : ℕ) (len : ℤ) : ℕ × ℤ :=
  (h + alignU32 (nlmsgLen m h), toInt32 ((toUInt32 len : ℤ) - alignU32 (nlmsgLen m h)))

/-! ### Attribute headers -/

/-- `RTA_LENGTH(0)`, also `sizeof(struct rtattr)`. -/
def rtaHdrlen : ℕ := 4

/-- `rta->rta_len`. -/
def rtaLen (m : Memory) (rta : ℕ) : ℕ := m.u16 rta

/-- `rta->rta_type`. -/
def rtaType (m : Memory) (rta : ℕ) : ℕ := m.u16 (rta + 2)

/-- `RTA_OK(rta, len)`. The 16-bit length is promoted to `int`. -/
def rtaOk (m : Memory) (rta : ℕ) (len : ℤ) : Bool :=
  decide (4 ≤ len) && decide (4 ≤ rtaLen m rta) && decide ((rtaLen m rta : ℤ) ≤ len)

/-- `RTA_NEXT(rta, len)`: the next attribute and the length left for it. -/
def rtaNext (m : Memory) (rta : ℕ) (len : ℤ) : ℕ × ℤ :=
  (rta + alignU32 (rtaLen m rta), toInt32 ((toUInt32 len : ℤ) - alignU32 (rtaLen m rta)))

/-! ### Message bodies -/

/-- `IFNAMSIZ`. -/
def ifnamsiz : ℕ := 16

/-- `AF_UNSPEC`. -/
def afUnspec : ℕ := 0

/-- `AF_INET`. -/
def afInet : ℤ := 2

/-- `IFLA_IFNAME`. -/
def iflaIfname : ℕ := 3

/-- `IFA_ADDRESS`. -/
def ifaAddress : ℕ := 1

/-- `IFA_LOCAL`. -/
def ifaLocal : ℕ := 2

/-- `sizeof(struct ifinfomsg)`. -/
def ifinfomsgSize : ℕ := 16

/-- `sizeof(struct ifaddrmsg)`. -/
def ifaddrmsgSize : ℕ := 8

/-! ### The two loops -/

theorem nlmsgOk_iff {m : Memory} {h : ℕ} {len : ℤ} :
    nlmsgOk m h len = true ↔
      16 ≤ len ∧ 16 ≤ nlmsgLen m h ∧ nlmsgLen m h ≤ toUInt32 len := by
  simp [nlmsgOk, and_assoc]

theorem rtaOk_iff {m : Memory} {rta : ℕ} {len : ℤ} :
    rtaOk m rta len = true ↔ 4 ≤ len ∧ 4 ≤ rtaLen m rta ∧ (rtaLen m rta : ℤ) ≤ len := by
  simp [rtaOk, and_assoc]

/-- Advancing by an accepted size shortens what is left, whatever the conversions
did to it. -/
private theorem advance_descends {len : ℤ} {n : ℕ} (positive : 4 ≤ len) (header : 4 ≤ n)
    (fits : (n : ℤ) ≤ len ∨ n ≤ toUInt32 len) :
    (toInt32 ((toUInt32 len : ℤ) - alignU32 n)).toNat < len.toNat := by
  rcases lt_or_ge len (2 ^ 31) with small | large
  · have exact_len := toUInt32_of_range (n := len) (by omega) (by omega)
    have bound : (n : ℤ) ≤ len := by omega
    have aligned := alignU32_eq (n := n) (by omega)
    have upper : alignUp n ≤ 2 ^ 31 := alignUp_le (by decide) (by omega)
    have lower := le_alignUp n
    rw [aligned, toInt32_sub_of_range (by omega) small (by omega)]
    omega
  · -- An `int` is below `2 ^ 31`, hence below any larger starting value.
    have upper := toInt32_upper ((toUInt32 len : ℤ) - alignU32 n)
    omega

/-- `for (h = ...; NLMSG_OK(h, len); h = NLMSG_NEXT(h, len))`. -/
def nlmsgCursor (m : Memory) : Cursor (ℕ × ℤ) where
  ok c := nlmsgOk m c.1 c.2
  next c := nlmsgNext m c.1 c.2
  bound c := c.2.toNat
  descends c test := by
    obtain ⟨positive, header, fits⟩ := nlmsgOk_iff.mp test
    exact advance_descends (by omega) (by omega) (.inr fits)

/-- `while (RTA_OK(rta, len)) { ...; rta = RTA_NEXT(rta, len); }`. -/
def rtaCursor (m : Memory) : Cursor (ℕ × ℤ) where
  ok c := rtaOk m c.1 c.2
  next c := rtaNext m c.1 c.2
  bound c := c.2.toNat
  descends c test := by
    obtain ⟨positive, header, fits⟩ := rtaOk_iff.mp test
    exact advance_descends positive header (.inl fits)

section Exact

variable {m : Memory} {p : ℕ} {len : ℤ} {n : ℕ}

/-- The test of the message loop, on an `int` and a known size. -/
theorem nlmsgCursor_ok (size : nlmsgLen m p = n) (range : len < 2 ^ 31) :
    (nlmsgCursor m).ok (p, len) = true ↔ 16 ≤ n ∧ (n : ℤ) ≤ len := by
  change nlmsgOk m p len = true ↔ _
  rw [nlmsgOk_iff, size]
  constructor
  · rintro ⟨positive, header, fits⟩
    have := toUInt32_of_range (n := len) (by omega) (by omega)
    omega
  · rintro ⟨header, fits⟩
    have := toUInt32_of_range (n := len) (by omega) (by omega)
    omega

/-- The advance of the message loop is exact. -/
theorem nlmsgCursor_next (size : nlmsgLen m p = n) (range : len < 2 ^ 31) (fits : (n : ℤ) ≤ len) :
    (nlmsgCursor m).next (p, len) = (p + alignUp n, len - alignUp n) := by
  have upper : alignUp n ≤ 2 ^ 31 := alignUp_le (by decide) (by omega)
  change nlmsgNext m p len = _
  rw [nlmsgNext, size, alignU32_eq (by omega),
    toInt32_sub_of_range (by omega) range (by omega)]

/-- The test of the attribute loop, on a known size. -/
theorem rtaCursor_ok (size : rtaLen m p = n) :
    (rtaCursor m).ok (p, len) = true ↔ 4 ≤ n ∧ (n : ℤ) ≤ len := by
  change rtaOk m p len = true ↔ _
  rw [rtaOk_iff, size]
  omega

/-- The advance of the attribute loop is exact. -/
theorem rtaCursor_next (size : rtaLen m p = n) (range : len < 2 ^ 31) (fits : (n : ℤ) ≤ len) :
    (rtaCursor m).next (p, len) = (p + alignUp n, len - alignUp n) := by
  have upper : alignUp n ≤ 2 ^ 31 := alignUp_le (by decide) (by omega)
  change rtaNext m p len = _
  rw [rtaNext, size, alignU32_eq (by omega),
    toInt32_sub_of_range (by omega) range (by omega)]

/-- Neither loop starts with fewer bytes than a header has. -/
theorem nlmsgCursor_short (short : len < 16) : (nlmsgCursor m).ok (p, len) = false := by
  change nlmsgOk m p len = false
  simp [nlmsgOk, Int.not_le.mpr short]

theorem rtaCursor_short (short : len < 4) : (rtaCursor m).ok (p, len) = false := by
  change rtaOk m p len = false
  simp [rtaOk, Int.not_le.mpr short]

end Exact

end LinuxProgram.Netlink
