import LinuxProgram.Netlink.Builder

/-!
# The bytes of a built message

`Built msg bytes` says that a message is valid, that it holds exactly the given bytes
behind its length field, and that everything between its end and its capacity is still
zero. Each function of the builder extends or patches these bytes, so that the bytes of a
whole request follow from the sequence of calls that builds it.

The room that `nlmsg_reserve` hands out is not cleared; it is zero because allocation
cleared the whole block and nothing was written behind the running length.

## Main definitions

* `attrBytes` — an attribute as bytes, padding included
* `Built`

## Main results

* `built_of_alloc`, `Built.put`, `Built.reserve`, `Built.beginNested`, `Built.endNested`,
  `Built.store`
* `Built.read` — all bytes of the message
-/

namespace LinuxProgram.Netlink

open Base

/-- The bytes of an attribute: its size, its type, the payload and zeros up to the next
multiple of four. -/
def attrBytes (type : ℕ) (payload : List UInt8) : List UInt8 :=
  leBytes 2 (4 + payload.length) ++ leBytes 2 type ++ payload ++
    List.replicate (alignUp (4 + payload.length) - (4 + payload.length)) 0

@[simp] theorem attrBytes_length (type : ℕ) (payload : List UInt8) :
    (attrBytes type payload).length = alignUp (4 + payload.length) := by
  have := le_alignUp (4 + payload.length)
  simp only [attrBytes, List.length_append, leBytes_length, List.length_replicate]
  omega

theorem attrBytes_length_mod (type : ℕ) (payload : List UInt8) :
    (attrBytes type payload).length % 4 = 0 := by
  rw [attrBytes_length]
  exact alignUp_mod _

/-- A payload whose size is a multiple of four needs no padding. -/
theorem attrBytes_of_mod {payload : List UInt8} (aligned : payload.length % 4 = 0) (type : ℕ) :
    attrBytes type payload = leBytes 2 (4 + payload.length) ++ leBytes 2 type ++ payload := by
  rw [attrBytes, alignUp_of_mod (by omega), Nat.sub_self, List.replicate_zero, List.append_nil]

theorem attrBytes_length_of_mod {payload : List UInt8} (aligned : payload.length % 4 = 0)
    (type : ℕ) : (attrBytes type payload).length = 4 + payload.length := by
  rw [attrBytes_length, alignUp_of_mod (by omega)]

section Fields

variable {m : Memory} {p type : ℕ} {payload : List UInt8}

/-- The fields of an attribute, where its bytes are held. -/
theorem attr_of_holds (held : m.Holds p (attrBytes type payload))
    (small : 4 + payload.length < 2 ^ 16) (short : type < 2 ^ 16) :
    rtaLen m p = 4 + payload.length ∧ rtaType m p = type ∧
      m.read (p + 4) payload.length = payload := by
  rw [attrBytes, Memory.holds_append, Memory.holds_append, Memory.holds_append] at held
  obtain ⟨⟨⟨size, kind⟩, data⟩, -⟩ := held
  rw [leBytes_length] at kind
  rw [List.length_append, leBytes_length, leBytes_length] at data
  refine ⟨?_, ?_, data⟩
  · rw [rtaLen, Memory.u16_of_holds size, Nat.mod_eq_of_lt small]
  · rw [rtaType, Memory.u16_of_holds kind, Nat.mod_eq_of_lt short]

end Fields

/-- The message holds `bytes` behind its length field, and zeros from its end on. -/
structure Built (msg : Nlmsg) (bytes : List UInt8) : Prop where
  valid : msg.Valid
  len : msg.len = 4 + bytes.length
  holds : msg.nlmsghdr.Holds 4 bytes
  zeros : ∀ i, msg.len ≤ i → i < msg.cap → msg.nlmsghdr i = 0

section Alloc

variable {shell : Bool} {block : Option Memory} {size : ℕ} {msg : Nlmsg}

/-- A fresh message has a header of zeros. -/
theorem built_of_alloc (small : size < 2 ^ 31) (alloc : nlmsgAlloc shell block size = some msg) :
    Built msg (List.replicate 12 0) := by
  have valid := nlmsgAlloc_valid small alloc
  have len := nlmsgAlloc_len alloc
  have within := valid.within
  rw [nlmsgHdrlen] at len
  refine ⟨valid, by rw [len, List.length_replicate], ?_, fun i lower upper => ?_⟩
  · apply Memory.holds_replicate
    intro i lower upper
    exact nlmsgAlloc_zero alloc lower (by omega)
  · exact nlmsgAlloc_zero alloc (by omega) upper

end Alloc

namespace Built

variable {msg : Nlmsg} {bytes : List UInt8}

/-- All bytes of the message. -/
theorem read (built : Built msg bytes) :
    msg.nlmsghdr.read 0 msg.len = leBytes 4 msg.len ++ bytes := by
  have first : leBytes 4 msg.len = msg.nlmsghdr.read 0 4 := by
    simpa [Nlmsg.len, nlmsgLen, Memory.u32] using leBytes_leNat (msg.nlmsghdr.read 0 4)
  rw [built.len, Memory.read_add, ← built.len, ← first, Nat.zero_add, built.holds]

/-- Bytes stored over others of the same number, behind the length field. -/
theorem store (built : Built msg bytes) {pre old post new : List UInt8} {off : ℕ}
    (split : bytes = pre ++ old ++ post) (start : off = 4 + pre.length)
    (size : new.length = old.length) :
    Built { msg with nlmsghdr := msg.nlmsghdr.write off new } (pre ++ new ++ post) := by
  obtain ⟨valid, len, holds, zeros⟩ := built
  subst split start
  have within := valid.within
  have same : Nlmsg.len { msg with nlmsghdr := msg.nlmsghdr.write (4 + pre.length) new } =
      msg.len := Memory.u32_congr fun i lo hi => Memory.write_apply_of_lt (by omega)
  simp only [List.length_append] at len
  refine ⟨⟨?_, ?_, ?_, valid.word⟩, ?_, holds.replace size, fun i lower upper => ?_⟩
  · rw [same]
    exact valid.aligned
  · rw [same]
    exact valid.header
  · rw [same]
    exact within
  · rw [same, len]
    simp only [List.length_append, size]
  · rw [same] at lower
    dsimp only
    rw [Memory.write_apply_of_ge (by omega)]
    exact zeros i lower upper

/-- `nla_put` appends one attribute. -/
theorem put (built : Built msg bytes) (type : ℕ) (data : List UInt8)
    (small : 4 + data.length < 2 ^ 16)
    (room : msg.len + alignUp (4 + data.length) ≤ msg.cap) :
    ∃ msg', nlaPut msg type data = (0, msg') ∧ msg'.cap = msg.cap ∧
      Built msg' (bytes ++ attrBytes type data) := by
  obtain ⟨valid, len, holds, zeros⟩ := built
  have within := valid.within
  have aligned := valid.aligned
  have header := valid.header
  have cap_word := valid.word
  have lower := le_alignUp (4 + data.length)
  have rounded := alignUp_mod (4 + data.length)
  rcases nlaPut_spec valid type data (by omega) with ⟨full, -⟩ | ⟨msg', result, put⟩
  · omega
  · have grows := put.grows
    have cap := put.cap
    -- The two header fields, the payload and the zeros that were there before.
    have appended : msg'.nlmsghdr.Holds msg.len (attrBytes type data) := by
      rw [attrBytes, Memory.holds_append, Memory.holds_append, Memory.holds_append]
      simp only [List.length_append, leBytes_length]
      refine ⟨⟨⟨Memory.holds_of_u16 put.size, Memory.holds_of_u16 ?_⟩, put.payload⟩, ?_⟩
      · rw [← rtaType, put.type]
        omega
      · apply Memory.holds_replicate
        intro i lo hi
        rw [put.frame i (by omega) (.inr (by omega))]
        exact zeros i (by omega) (by omega)
    refine ⟨msg', result, cap, ⟨by omega, by omega, by omega, by omega⟩, ?_, ?_, fun i lo hi => ?_⟩
    · rw [grows, List.length_append, attrBytes_length]
      omega
    · rw [Memory.holds_append, ← len]
      exact ⟨holds.congr fun i lo hi => put.frame i lo (.inl (by omega)), appended⟩
    · rw [put.frame i (by omega) (.inr (by omega))]
      exact zeros i (by omega) (by omega)

/-- `nlmsg_reserve` appends zeros. -/
theorem reserve (built : Built msg bytes) {n : ℕ} (small : n < 2 ^ 31)
    (room : msg.len + alignUp n ≤ msg.cap) :
    ∃ msg', nlmsgReserve msg n = (some msg.len, msg') ∧ msg'.cap = msg.cap ∧
      Built msg' (bytes ++ List.replicate (alignUp n) 0) := by
  obtain ⟨valid, len, holds, zeros⟩ := built
  have within := valid.within
  have aligned := valid.aligned
  have header := valid.header
  have word := valid.word
  have lower := le_alignUp n
  have rounded := alignUp_mod n
  rw [nlmsgHdrlen] at header
  rcases nlmsgReserve_spec valid n small with ⟨full, -⟩ | ⟨msg', result, reserved⟩
  · omega
  · have grows := reserved.grows
    have cap := reserved.cap
    refine ⟨msg', result, cap, ⟨by omega, by rw [nlmsgHdrlen]; omega, by omega, by omega⟩, ?_, ?_,
      fun i lo hi => ?_⟩
    · rw [grows, List.length_append, List.length_replicate]
      omega
    · rw [Memory.holds_append, ← len]
      refine ⟨holds.congr fun i lo hi => reserved.frame i lo (.inl (by omega)), ?_⟩
      apply Memory.holds_replicate
      intro i lo hi
      rcases Nat.lt_or_ge i (msg.len + n) with inside | padding
      · rw [reserved.frame i (by omega) (.inl inside)]
        exact zeros i lo (by omega)
      · exact reserved.padding i padding (by omega)
    · rw [reserved.frame i (by omega) (.inr (by omega))]
      exact zeros i (by omega) (by omega)

/-- `nla_begin_nested` appends an empty attribute and returns where it stands. -/
theorem beginNested (built : Built msg bytes) (type : ℕ)
    (room : msg.len + 4 ≤ msg.cap) :
    ∃ msg', nlaBeginNested msg type = (some (4 + bytes.length), msg') ∧ msg'.cap = msg.cap ∧
      Built msg' (bytes ++ attrBytes type []) := by
  obtain ⟨msg', result, cap, built'⟩ := built.put type [] (by simp) room
  refine ⟨msg', ?_, cap, built'⟩
  rw [nlaBeginNested, nlaPutAttr, result, built.valid.tail, built.len]
  simp

/-- `nla_end_nested` makes what was appended since the payload of the open attribute. -/
theorem endNested {pre payload : List UInt8} {type : ℕ}
    (built : Built msg (pre ++ attrBytes type [] ++ payload)) (aligned : payload.length % 4 = 0) :
    Built (nlaEndNested msg (4 + pre.length)) (pre ++ attrBytes type payload) := by
  have empty : attrBytes type [] = leBytes 2 4 ++ leBytes 2 type := by
    rw [attrBytes_of_mod (by simp)]
    simp
  have split : pre ++ attrBytes type [] ++ payload =
      pre ++ leBytes 2 4 ++ (leBytes 2 type ++ payload) := by
    simp [empty]
  have size : (((nlmsgTail msg : ℤ) - (4 + pre.length : ℕ)) % 2 ^ 16).toNat =
      (4 + payload.length) % 2 ^ 16 := by
    rw [built.valid.tail, built.len, split]
    simp only [List.length_append, leBytes_length]
    omega
  have closed : Built _ (pre ++ leBytes 2 (4 + payload.length) ++ (leBytes 2 type ++ payload)) :=
    built.store split rfl (by simp)
  have joined : pre ++ leBytes 2 (4 + payload.length) ++ (leBytes 2 type ++ payload) =
      pre ++ attrBytes type payload := by
    simp [attrBytes_of_mod aligned]
  have stored : leBytes 2 ((4 + payload.length) % 2 ^ 16) = leBytes 2 (4 + payload.length) :=
    leBytes_mod 2 _
  rw [nlaEndNested, size, Memory.setU16, stored]
  rwa [joined] at closed

end Built

end LinuxProgram.Netlink
