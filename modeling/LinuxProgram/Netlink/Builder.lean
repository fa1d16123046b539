import LinuxProgram.Netlink.Macros

/-!
# Building a netlink message

The message type of `nl.c` and the functions that grow a message: allocation,
reserving room, and putting attributes. A message is the block that `nlmsghdr`
points to and its capacity; the running length lives in the block itself, in the
first header field.

Each function has one specification, stated for a `Nlmsg.Valid` message. A
function that fails returns its message untouched; one that succeeds moves the
length, stores what it was given and changes no other byte. Later modules use
only these specifications.

## Main definitions

* `Nlmsg`, `nlmsgAlloc`, `nlmsgAllocReserve`, `nlmsgReserve`
* `nlaPut` and its family, `nlaBeginNested`, `nlaEndNested`
* `Nlmsg.Valid` — the length is aligned and within the capacity

## Main results

* `nlmsgReserve_spec`, `nlaPut_spec`, `nlaBeginNested_spec`, `nlaEndNested_spec`
* `nlaPut_exact_iff` — for which sizes the arithmetic of `nla_put` is exact
-/

namespace LinuxProgram.Netlink

open Base

/-- `struct nlmsg`: the block at `nlmsghdr` and its size. -/
structure Nlmsg where
  nlmsghdr : Memory
  cap : ℕ

/-- `nlmsg->nlmsghdr->nlmsg_len`. -/
def Nlmsg.len (msg : Nlmsg) : ℕ := nlmsgLen msg.nlmsghdr 0

/-- `NLMSG_GOOD_SIZE`, two pages. -/
def nlmsgGoodSize : ℕ := 8192

/-- `ENOMEM`. -/
def enomem : ℤ := 12

/-- `NLMSG_TAIL(nlmsg->nlmsghdr)`. -/
def nlmsgTail (msg : Nlmsg) : ℕ := alignU32 msg.len

/-- `nlmsg_alloc`. `shell` tells whether `malloc` found room for the structure
itself, and `block` is what it returned for the message, contents included. -/
def nlmsgAlloc (shell : Bool) (block : Option Memory) (size : ℕ) : Option Nlmsg :=
  let len := nlmsgHdrlen + alignSize size
  if shell then
    match block with
    | some raw => some { nlmsghdr := (raw.fill 0 len 0).setU32 0 nlmsgHdrlen, cap := len }
    | none => none
  else none

/-- `nlmsg_alloc_reserve`. The capacity is stored in a 32-bit field. -/
def nlmsgAllocReserve (shell : Bool) (block : Option Memory) (size : ℕ) : Option Nlmsg :=
  match nlmsgAlloc shell block size with
  | some msg => some { msg with nlmsghdr := msg.nlmsghdr.setU32 0 msg.cap }
  | none => none

/-- `nlmsg_reserve`: the start of the reserved room, or `none` when the message
is too small. -/
def nlmsgReserve (msg : Nlmsg) (len : ℕ) : Option ℕ × Nlmsg :=
  let nlmsgLen := msg.len
  let tlen := alignSize len
  if msg.cap < (nlmsgLen + tlen) % 2 ^ 64 then (none, msg)
  else
    let grown := msg.nlmsghdr.setU32 0 (nlmsgLen + tlen)
    -- Only the padding is cleared, not the room that is handed out.
    let padded := if len < tlen then grown.fill (nlmsgLen + len) (tlen - len) 0 else grown
    (some nlmsgLen, { msg with nlmsghdr := padded })

/-- `nla_put`. The type and the length are cut to the 16 bits of their fields. -/
def nlaPut (msg : Nlmsg) (attr : ℤ) (data : List UInt8) : ℤ × Nlmsg :=
  let rtalen := (rtaHdrlen + data.length) % 2 ^ 64
  let tlen := (alignU32 msg.len + alignSize rtalen) % 2 ^ 64
  if msg.cap < tlen then (-enomem, msg)
  else
    let rta := nlmsgTail msg
    -- `rta_type` is stored before `rta_len`, the payload, and last the message length.
    let typed := msg.nlmsghdr.setU16 (rta + 2) (attr % 2 ^ 16).toNat
    let sized := typed.setU16 rta rtalen
    let copied := sized.write (rta + rtaHdrlen) data
    (0, { msg with nlmsghdr := copied.setU32 0 tlen })

/-- `nla_put_buffer`. -/
def nlaPutBuffer (msg : Nlmsg) (attr : ℤ) (data : List UInt8) : ℤ × Nlmsg :=
  nlaPut msg attr data

/-- The bytes of a C string, terminator included. -/
def cString (s : List UInt8) : List UInt8 := s.takeWhile (· ≠ 0) ++ [0]

/-- `nla_put_string`. -/
def nlaPutString (msg : Nlmsg) (attr : ℤ) (s : List UInt8) : ℤ × Nlmsg :=
  nlaPut msg attr (cString s)

/-- `nla_put_u32`. -/
def nlaPutU32 (msg : Nlmsg) (attr value : ℤ) : ℤ × Nlmsg :=
  nlaPut msg attr (leBytes 4 (toUInt32 value))

/-- `nla_put_u16`. -/
def nlaPutU16 (msg : Nlmsg) (attr : ℤ) (value : ℕ) : ℤ × Nlmsg :=
  nlaPut msg attr (leBytes 2 value)

/-- `nla_put_attr`. -/
def nlaPutAttr (msg : Nlmsg) (attr : ℤ) : ℤ × Nlmsg :=
  nlaPut msg attr []

/-- `nla_begin_nested`: the attribute that `nla_end_nested` will close. -/
def nlaBeginNested (msg : Nlmsg) (attr : ℤ) : Option ℕ × Nlmsg :=
  let rtattr := nlmsgTail msg
  match nlaPutAttr msg attr with
  | (ret, msg') => if ret ≠ 0 then (none, msg') else (some rtattr, msg')

/-- `nla_end_nested`. The pointer difference is cut to the 16 bits of `rta_len`. -/
def nlaEndNested (msg : Nlmsg) (attr : ℕ) : Nlmsg :=
  { msg with
    nlmsghdr := msg.nlmsghdr.setU16 attr (((nlmsgTail msg : ℤ) - attr) % 2 ^ 16).toNat }

/-! ### Valid messages -/

/-- The running length is aligned, covers the header and stays within the
capacity, and the capacity is one that 32-bit arithmetic on lengths can handle. -/
structure Nlmsg.Valid (msg : Nlmsg) : Prop where
  aligned : msg.len % 4 = 0
  header : nlmsgHdrlen ≤ msg.len
  within : msg.len ≤ msg.cap
  word : msg.cap ≤ 2 ^ 31 + 16

namespace Nlmsg.Valid

variable {msg : Nlmsg}

/-- On a valid message the tail is the length: reserving and putting agree. -/
theorem tail (valid : msg.Valid) : nlmsgTail msg = msg.len := by
  have within := valid.within
  have word := valid.word
  rw [nlmsgTail, alignU32_eq (by omega), alignUp_of_mod valid.aligned]

end Nlmsg.Valid

section Allocation

variable {shell : Bool} {block : Option Memory} {size : ℕ} {msg : Nlmsg}

/-- A message comes from a block that `malloc` returned. -/
theorem nlmsgAlloc_some (alloc : nlmsgAlloc shell block size = some msg) :
    ∃ raw : Memory, msg =
      { nlmsghdr := (raw.fill 0 (nlmsgHdrlen + alignSize size) 0).setU32 0 nlmsgHdrlen
        cap := nlmsgHdrlen + alignSize size } := by
  unfold nlmsgAlloc at alloc
  split_ifs at alloc
  cases block with
  | none => cases alloc
  | some raw => exact ⟨raw, (Option.some.inj alloc).symm⟩

theorem nlmsgAlloc_cap (alloc : nlmsgAlloc shell block size = some msg) :
    msg.cap = nlmsgHdrlen + alignSize size := by
  obtain ⟨raw, rfl⟩ := nlmsgAlloc_some alloc
  rfl

theorem nlmsgAlloc_len (alloc : nlmsgAlloc shell block size = some msg) :
    msg.len = nlmsgHdrlen := by
  obtain ⟨raw, rfl⟩ := nlmsgAlloc_some alloc
  exact Memory.u32_setU32_same

/-- Allocation zeroes everything behind the length field. -/
theorem nlmsgAlloc_zero (alloc : nlmsgAlloc shell block size = some msg) {i : ℕ} (lower : 4 ≤ i)
    (upper : i < msg.cap) : msg.nlmsghdr i = 0 := by
  obtain ⟨raw, rfl⟩ := nlmsgAlloc_some alloc
  dsimp only at upper ⊢
  rw [Memory.setU32_apply_outside (.inr (by omega))]
  exact Memory.fill_apply_inside (Nat.zero_le i) (by omega) 0

theorem nlmsgAlloc_valid (small : size < 2 ^ 31) (alloc : nlmsgAlloc shell block size = some msg) :
    msg.Valid := by
  have cap := nlmsgAlloc_cap alloc
  have len := nlmsgAlloc_len alloc
  -- Below this size the 32-bit mask in the rounding does no harm.
  rw [alignSize_eq (by omega)] at cap
  have bound : alignUp size ≤ 2 ^ 31 := alignUp_le (by decide) (by omega)
  simp only [nlmsgHdrlen] at cap len
  exact ⟨by omega, by rw [nlmsgHdrlen]; omega, by omega, by omega⟩

end Allocation

/-! ### Reserving room -/

/-- What a successful `nlmsg_reserve` of `len` bytes does. -/
structure Reserved (msg msg' : Nlmsg) (len : ℕ) : Prop where
  cap : msg'.cap = msg.cap
  grows : msg'.len = msg.len + alignUp len
  room : msg.len + alignUp len ≤ msg.cap
  padding : ∀ i, msg.len + len ≤ i → i < msg'.len → msg'.nlmsghdr i = 0
  frame : ∀ i, 4 ≤ i → i < msg.len + len ∨ msg'.len ≤ i → msg'.nlmsghdr i = msg.nlmsghdr i

/-- `nlmsg_reserve` fails without effect when the room is missing, and otherwise
hands out the bytes from the running length on. -/
theorem nlmsgReserve_spec {msg : Nlmsg} (valid : msg.Valid) (len : ℕ) (small : len < 2 ^ 31) :
    (msg.cap < msg.len + alignUp len ∧ nlmsgReserve msg len = (none, msg)) ∨
      ∃ msg', nlmsgReserve msg len = (some msg.len, msg') ∧ Reserved msg msg' len := by
  have header : 16 ≤ msg.len := valid.header
  have within := valid.within
  have word := valid.word
  have bound : alignUp len ≤ 2 ^ 31 := alignUp_le (by decide) (by omega)
  have lower := le_alignUp len
  -- The sum that the code compares with the capacity does not wrap around.
  have total : (msg.len + alignUp len) % 2 ^ 64 = msg.len + alignUp len := by omega
  unfold nlmsgReserve
  rw [alignSize_eq (by omega)]
  simp only [total]
  split_ifs with full pad
  · exact .inl ⟨full, rfl⟩
  · -- Padding is needed and is cleared.
    refine .inr ⟨_, rfl, ?_⟩
    have grows : (Nlmsg.mk ((msg.nlmsghdr.setU32 0 (msg.len + alignUp len)).fill (msg.len + len)
        (alignUp len - len) 0) msg.cap).len = msg.len + alignUp len := by
      rw [Nlmsg.len, nlmsgLen, Memory.u32, Memory.read_fill_apart 0 (.inl (by omega)),
        ← Memory.u32, Memory.u32_setU32_same]
      omega
    refine ⟨rfl, grows, by omega, fun i lo hi => ?_, fun i lo apart => ?_⟩
    · rw [grows] at hi
      exact Memory.fill_apply_inside lo (by omega) 0
    · rw [grows] at apart
      dsimp only
      rw [Memory.fill_apply_outside 0 (by omega), Memory.setU32_apply_outside (.inr (by omega))]
  · -- The length was a multiple of four.
    refine .inr ⟨_, rfl, ?_⟩
    have grows : (Nlmsg.mk (msg.nlmsghdr.setU32 0 (msg.len + alignUp len)) msg.cap).len =
        msg.len + alignUp len := by
      rw [Nlmsg.len, nlmsgLen, Memory.u32_setU32_same]
      omega
    refine ⟨rfl, grows, by omega, fun i lo hi => ?_, fun i lo apart => ?_⟩
    · rw [grows] at hi
      omega
    · exact Memory.setU32_apply_outside (.inr (by omega))

/-! ### Putting an attribute -/

/-- What a successful `nla_put` of the given type and payload does. -/
structure Put (msg msg' : Nlmsg) (attr : ℤ) (data : List UInt8) : Prop where
  cap : msg'.cap = msg.cap
  grows : msg'.len = msg.len + alignUp (4 + data.length)
  room : msg.len + alignUp (4 + data.length) ≤ msg.cap
  type : rtaType msg'.nlmsghdr msg.len = (attr % 2 ^ 16).toNat
  size : rtaLen msg'.nlmsghdr msg.len = (4 + data.length) % 2 ^ 16
  payload : msg'.nlmsghdr.Holds (msg.len + 4) data
  frame : ∀ i, 4 ≤ i → i < msg.len ∨ msg.len + 4 + data.length ≤ i →
    msg'.nlmsghdr i = msg.nlmsghdr i

/-- `nla_put` fails without effect when the room is missing, and otherwise
appends one attribute at the running length. -/
theorem nlaPut_spec {msg : Nlmsg} (valid : msg.Valid) (attr : ℤ) (data : List UInt8)
    (small : data.length ≤ 2 ^ 31) :
    (msg.cap < msg.len + alignUp (4 + data.length) ∧ nlaPut msg attr data = (-enomem, msg)) ∨
      ∃ msg', nlaPut msg attr data = (0, msg') ∧ Put msg msg' attr data := by
  have header : 16 ≤ msg.len := valid.header
  have within := valid.within
  have word := valid.word
  have bound : alignUp (4 + data.length) ≤ 2 ^ 31 + 4 := alignUp_le (by decide) (by omega)
  have lower := le_alignUp (4 + data.length)
  have rtalen : (rtaHdrlen + data.length) % 2 ^ 64 = 4 + data.length := by
    rw [rtaHdrlen]
    omega
  have total : (msg.len + alignUp (4 + data.length)) % 2 ^ 64 =
      msg.len + alignUp (4 + data.length) := by omega
  have tail : alignU32 msg.len = msg.len := valid.tail
  simp only [nlaPut, nlmsgTail, tail, rtalen, total,
    alignSize_eq (show 4 + data.length ≤ 2 ^ 32 - 4 by omega)]
  split_ifs with full
  · exact .inl ⟨full, rfl⟩
  · refine .inr ⟨_, rfl, ?_⟩
    -- The four stores touch the length field, the attribute header and the payload.
    refine ⟨rfl, ?_, by omega, ?_, ?_, ?_, fun i lo apart => ?_⟩
    · rw [Nlmsg.len, nlmsgLen, Memory.u32_setU32_same]
      omega
    · -- The type was stored first; look for it below the three later stores.
      rw [rtaType, rtaHdrlen,
        Memory.u16_congr fun i lo hi => Memory.setU32_apply_outside (.inr (by omega)),
        Memory.u16_congr fun i lo hi => Memory.write_apply_outside (.inl (by omega)),
        Memory.u16_congr fun i lo hi => Memory.setU16_apply_outside (.inr (by omega)),
        Memory.u16_setU16_same]
      omega
    · rw [rtaLen, rtaHdrlen,
        Memory.u16_congr fun i lo hi => Memory.setU32_apply_outside (.inr (by omega)),
        Memory.u16_congr fun i lo hi => Memory.write_apply_outside (.inl (by omega)),
        Memory.u16_setU16_same]
    · dsimp only [rtaHdrlen, Memory.setU32]
      refine Memory.Holds.write_apart Memory.holds_write (.inr ?_)
      rw [leBytes_length]
      omega
    · dsimp only
      rw [Memory.setU32_apply_outside (.inr (by omega)), Memory.write_apply_outside (by
          rw [rtaHdrlen]; omega),
        Memory.setU16_apply_outside (by omega), Memory.setU16_apply_outside (by omega)]

/-- Opening a nest puts an empty attribute and returns where it stands. -/
theorem nlaBeginNested_spec {msg : Nlmsg} (valid : msg.Valid) (attr : ℤ) :
    (msg.cap < msg.len + 4 ∧ nlaBeginNested msg attr = (none, msg)) ∨
      ∃ msg', nlaBeginNested msg attr = (some msg.len, msg') ∧ Put msg msg' attr [] := by
  unfold nlaBeginNested nlaPutAttr
  rw [valid.tail]
  rcases nlaPut_spec valid attr [] (by simp) with ⟨full, put⟩ | ⟨msg', put, spec⟩
  · rw [put]
    exact .inl ⟨full, by simp [enomem]⟩
  · rw [put]
    exact .inr ⟨msg', by simp, spec⟩

/-- What `nla_end_nested` does to the attribute at `attr`. -/
structure Closed (msg msg' : Nlmsg) (attr : ℕ) : Prop where
  cap : msg'.cap = msg.cap
  len : msg'.len = msg.len
  size : rtaLen msg'.nlmsghdr attr = (msg.len - attr) % 2 ^ 16
  frame : ∀ i, i < attr ∨ attr + 2 ≤ i → msg'.nlmsghdr i = msg.nlmsghdr i

/-- Closing a nest patches two bytes, which must lie behind the message's own
header. -/
theorem nlaEndNested_spec {msg : Nlmsg} (valid : msg.Valid) {attr : ℕ} (inside : 16 ≤ attr)
    (before : attr ≤ msg.len) : Closed msg (nlaEndNested msg attr) attr := by
  have tail := valid.tail
  refine ⟨rfl, ?_, ?_, fun i apart => Memory.setU16_apply_outside apart⟩
  · exact Memory.u32_congr fun i lo hi => Memory.setU16_apply_outside (.inl (by omega))
  · rw [rtaLen, nlaEndNested, Memory.u16_setU16_same, tail]
    omega

/-! ### Sizes beyond the valid ones

The specifications above are for lengths that 32-bit arithmetic can handle. Here the
message and the payload size are arbitrary. -/

section EverySize

variable (msg : Nlmsg) (attr : ℤ) (data : List UInt8)

/-- The room that `nla_put` counts for a payload of `n` bytes. The mask has 32 bits,
so it drops what the attribute's size has above them. -/
def countedRoom (n : ℕ) : ℕ := (n + 7) % 2 ^ 32 / 4 * 4

theorem alignSize_rtalen (n : ℕ) : alignSize ((rtaHdrlen + n) % 2 ^ 64) = countedRoom n := by
  rw [alignSize, and_mask, rtaHdrlen, countedRoom]
  omega

theorem countedRoom_eq {n : ℕ} (small : n ≤ 2 ^ 32 - 8) : countedRoom n = alignUp (4 + n) := by
  rw [countedRoom, alignUp]
  omega

/-- `nla_put` on any message and any payload size. -/
theorem nlaPut_eq :
    nlaPut msg attr data =
      if msg.cap < nlmsgTail msg + countedRoom data.length then (-enomem, msg)
      else (0, { msg with
        nlmsghdr := (((msg.nlmsghdr.setU16 (nlmsgTail msg + 2) (attr % 2 ^ 16).toNat).setU16
          (nlmsgTail msg) ((4 + data.length) % 2 ^ 64)).write (nlmsgTail msg + 4) data).setU32 0
          (nlmsgTail msg + countedRoom data.length) }) := by
  have tail := alignU32_lt msg.len
  have room : countedRoom data.length < 2 ^ 32 := by
    rw [countedRoom]
    omega
  have total : (alignU32 msg.len + countedRoom data.length) % 2 ^ 64 =
      nlmsgTail msg + countedRoom data.length := Nat.mod_eq_of_lt (by omega)
  simp only [nlaPut, alignSize_rtalen, total]
  rfl

theorem nlaPut_eq_zero :
    (nlaPut msg attr data).1 = 0 ↔ nlmsgTail msg + countedRoom data.length ≤ msg.cap := by
  rw [nlaPut_eq]
  split_ifs with full
  · simpa [enomem] using full
  · simpa using full

/-- The length field of the new attribute. Where the message's own length makes the
attribute start at offset zero, the message length is stored over it. -/
theorem nlaPut_rtaLen (room : nlmsgTail msg + countedRoom data.length ≤ msg.cap) :
    rtaLen (nlaPut msg attr data).2.nlmsghdr (nlmsgTail msg) =
      if nlmsgTail msg = 0 then countedRoom data.length % 2 ^ 16
      else (4 + data.length) % 2 ^ 16 := by
  rw [nlaPut_eq, if_neg (by omega), rtaLen]
  split_ifs with start
  · rw [start, Memory.u16_setU32_same, Nat.zero_add]
  · have apart : 4 ≤ nlmsgTail msg := by
      have := alignU32_mod msg.len
      rw [nlmsgTail] at start ⊢
      omega
    rw [Memory.u16_congr fun i lo hi => Memory.setU32_apply_outside (.inr (by omega)),
      Memory.u16_congr fun i lo hi => Memory.write_apply_outside (.inl (by omega)),
      Memory.u16_setU16_same]
    omega

/-- A fresh message of `size` bytes takes `n` bytes of payload as soon as the counted
room fits. -/
theorem fresh_put {shell : Bool} {block : Option Memory} {size n : ℕ} {fresh : Nlmsg}
    (alloc : nlmsgAlloc shell block size = some fresh)
    (room : 16 + countedRoom n ≤ 16 + alignSize size) :
    (nlaPut fresh 1 (List.replicate n 0)).1 = 0 ∧
      rtaLen (nlaPut fresh 1 (List.replicate n 0)).2.nlmsghdr 16 = (4 + n) % 2 ^ 16 := by
  have tail : nlmsgTail fresh = 16 := by
    rw [nlmsgTail, nlmsgAlloc_len alloc, nlmsgHdrlen]
    decide
  have fits : nlmsgTail fresh + countedRoom (List.replicate n (0 : UInt8)).length ≤ fresh.cap := by
    rw [tail, nlmsgAlloc_cap alloc, List.length_replicate]
    exact room
  have stored := nlaPut_rtaLen fresh 1 (List.replicate n 0) fits
  rw [tail, if_neg (by decide), List.length_replicate] at stored
  exact ⟨(nlaPut_eq_zero fresh 1 _).mpr fits, stored⟩

/-- The sizes on which the check and the stored length of `nla_put` are exact: the
attribute's size fits its 16-bit field, or the counted room already exceeds the
capacity. A message whose length field is zero, or so large that rounding it up
wraps around, gets its attribute written over its own header; there the size must be
a multiple of four as well and the room must be checked exactly. -/
def PutExact (cap len n : ℕ) : Prop :=
  cap < alignU32 len + countedRoom n ∨
    n < 65532 ∧ (0 < len ∧ len ≤ 2 ^ 32 - 4 ∨ n % 4 = 0 ∧ alignUp len + 4 + n ≤ cap)

theorem nlaPut_exact_iff :
    ((nlaPut msg attr data).1 = 0 →
      alignUp msg.len + 4 + data.length ≤ msg.cap ∧
        rtaLen (nlaPut msg attr data).2.nlmsghdr (nlmsgTail msg) = 4 + data.length) ↔
      PutExact msg.cap msg.len data.length := by
  rw [nlaPut_eq_zero, PutExact, ← nlmsgTail]
  rcases Nat.lt_or_ge msg.cap (nlmsgTail msg + countedRoom data.length) with full | room
  · exact iff_of_true (fun fits => absurd full (by omega)) (.inl full)
  · rw [nlaPut_rtaLen msg attr data room]
    have word : msg.len < 2 ^ 32 := Memory.u32_lt
    have start := alignU32_eq_zero word
    rw [← nlmsgTail] at start
    simp only [room, forall_const, Nat.not_lt.mpr room, false_or]
    split_ifs with atZero
    · -- The header is overwritten: the rounded size has to be the size itself.
      have wrapped := start.mp atZero
      rcases Nat.lt_or_ge data.length 65532 with small | large
      · rw [countedRoom_eq (by omega)]
        simp only [alignUp]
        omega
      · omega
    · have exactTail : nlmsgTail msg = alignUp msg.len := alignU32_eq (by omega)
      have lower := le_alignUp (4 + data.length)
      rcases Nat.lt_or_ge data.length 65532 with small | large
      · rw [countedRoom_eq (by omega)] at room
        omega
      · omega

/-- 65532 bytes fit a message of 65552, but the attribute's length field then reads
zero; and a payload of `2 ^ 32 - 4` bytes is accepted by a message of 16. -/
theorem nlaPut_inexact :
    (∃ msg, nlmsgAlloc true (some fun _ => 0) 65536 = some msg ∧
      (nlaPut msg 1 (List.replicate 65532 0)).1 = 0 ∧
      rtaLen (nlaPut msg 1 (List.replicate 65532 0)).2.nlmsghdr 16 = 0) ∧
    ∃ msg, nlmsgAlloc true (some fun _ => 0) 0 = some msg ∧ msg.cap = 16 ∧
      (nlaPut msg 1 (List.replicate (2 ^ 32 - 4) 0)).1 = 0 := by
  have served (size : ℕ) : ∃ msg, nlmsgAlloc true (some fun _ => 0) size = some msg := ⟨_, rfl⟩
  obtain ⟨large, allocLarge⟩ := served 65536
  obtain ⟨small, allocSmall⟩ := served 0
  refine ⟨⟨large, allocLarge, fresh_put allocLarge (by decide)⟩, small, allocSmall, ?_,
    (fresh_put allocSmall (by decide)).1⟩
  rw [nlmsgAlloc_cap allocSmall]
  decide

end EverySize

end LinuxProgram.Netlink
