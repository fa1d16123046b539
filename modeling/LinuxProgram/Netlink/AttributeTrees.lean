import LinuxProgram.Netlink.Builder
import LinuxProgram.Netlink.Parser
import Mathlib.Logic.Function.Basic

/-!
# Attribute trees: writing and parsing

A forest of attributes is written with the building functions of `nl.c` and read
back with `nl_parse_rtattr` of `getaddr.c`. The writer keeps a running length and
patches the length of a nest when the nest is closed; the reader re-derives every
position from the stored lengths alone.

The two meet in `Forest.Layout`, which says what the bytes of a written forest
are. Writing establishes the layout (`Forest.write_layout`), and a layout is
parsed level by level into the forest it was written from
(`Forest.Layout.decodes`).
-/

namespace LinuxProgram.Netlink

open Base

/-! ### Forests and how they are written -/

/-- What a leaf is written with. -/
inductive Payload
  | buffer (data : List UInt8)
  | string (s : List UInt8)
  | u32 (value : ℤ)
  | u16 (value : ℕ)
  | attr

namespace Payload

/-- The payload bytes. -/
def bytes : Payload → List UInt8
  | buffer data => data
  | string s => cString s
  | u32 value => leBytes 4 (toUInt32 value)
  | u16 value => leBytes 2 value
  | attr => []

/-- The call that writes the payload. -/
def put (msg : Nlmsg) (type : ℤ) : Payload → ℤ × Nlmsg
  | buffer data => nlaPutBuffer msg type data
  | string s => nlaPutString msg type s
  | u32 value => nlaPutU32 msg type value
  | u16 value => nlaPutU16 msg type value
  | attr => nlaPutAttr msg type

theorem put_eq (msg : Nlmsg) (type : ℤ) (payload : Payload) :
    payload.put msg type = nlaPut msg type payload.bytes := by
  cases payload <;> rfl

end Payload

/-- A forest of attributes, first tree first. A nest may start with a reserved
block, here given by the bytes its caller stores in it. -/
inductive Forest
  | nil
  | leaf (type : UInt16) (payload : Payload) (rest : Forest)
  | nest (type : UInt16) (reserved : Option (List UInt8)) (children rest : Forest)

/-- An attribute without its type and its siblings. -/
inductive Node
  | leaf (payload : Payload)
  | nest (reserved : Option (List UInt8)) (children : Forest)

/-- An attribute and the offset it was written at. -/
structure Placed where
  type : UInt16
  rta : ℕ
  node : Node

/-- Reserve room for an optional block and store the block there, if the call
returns room. -/
def reserveBlock (msg : Nlmsg) : Option (List UInt8) → Option Nlmsg
  | none => some msg
  | some block =>
    match nlmsgReserve msg block.length with
    | (some buf, msg') => some { msg' with nlmsghdr := msg'.nlmsghdr.write buf block }
    | (none, _) => none

/-- The room a reserved block takes up. -/
def blockSize : Option (List UInt8) → ℕ
  | none => 0
  | some block => alignUp block.length

/-- The size of a reserved block survives the rounding, which has 32 bits. -/
def BlockCounted (reserved : Option (List UInt8)) : Prop :=
  ∀ block ∈ reserved, block.length ≤ 2 ^ 32 - 4

namespace Forest

/-- Write a forest at the end of a message. The result is `none` unless every
call returns success; a copy that is longer than the message goes on behind it.
Also returned is where the attributes of the first level went. -/
def write : Forest → Nlmsg → Option (List Placed × Nlmsg)
  | nil, msg => some ([], msg)
  | leaf type payload rest, msg =>
    match payload.put msg type.toNat with
    | (ret, msg₁) =>
      if ret = 0 then
        match rest.write msg₁ with
        | some (placed, msg₂) => some (⟨type, nlmsgTail msg, .leaf payload⟩ :: placed, msg₂)
        | none => none
      else none
  | nest type reserved children rest, msg =>
    match nlaBeginNested msg type.toNat with
    | (some nested, msg₁) =>
      match reserveBlock msg₁ reserved with
      | some msg₂ =>
        match children.write msg₂ with
        | some (_, msg₃) =>
          match rest.write (nlaEndNested msg₃ nested) with
          | some (placed, msg₄) => some (⟨type, nested, .nest reserved children⟩ :: placed, msg₄)
          | none => none
        | none => none
      | none => none
    | (none, _) => none

/-- Every payload and every reserved block has a size that the 32-bit rounding of
`nla_put` and `nlmsg_reserve` does not cut. -/
def Counted : Forest → Prop
  | nil => True
  | leaf _ payload rest => payload.bytes.length ≤ 2 ^ 32 - 8 ∧ rest.Counted
  | nest _ reserved children rest => BlockCounted reserved ∧ children.Counted ∧ rest.Counted

/-! ### Layouts -/

/-- The number of bytes a forest takes up. -/
def size : Forest → ℕ
  | nil => 0
  | leaf _ payload rest => alignUp (4 + payload.bytes.length) + rest.size
  | nest _ reserved children rest => 4 + blockSize reserved + children.size + rest.size

/-- The attributes of the first level, the first one at offset `p`. -/
def placed : ℕ → Forest → List Placed
  | _, nil => []
  | p, leaf type payload rest =>
    ⟨type, p, .leaf payload⟩ :: placed (p + alignUp (4 + payload.bytes.length)) rest
  | p, nest type reserved children rest =>
    ⟨type, p, .nest reserved children⟩ ::
      placed (p + (4 + blockSize reserved + children.size)) rest

/-- The bytes from offset `p` on are those of the forest. -/
def Layout (m : Memory) : ℕ → Forest → Prop
  | _, nil => True
  | p, leaf type payload rest =>
    rtaLen m p = 4 + payload.bytes.length ∧ rtaType m p = type.toNat ∧
      m.Holds (p + 4) payload.bytes ∧ Layout m (p + alignUp (4 + payload.bytes.length)) rest
  | p, nest type reserved children rest =>
    rtaLen m p = 4 + blockSize reserved + children.size ∧ rtaType m p = type.toNat ∧
      Layout m (p + 4 + blockSize reserved) children ∧
      Layout m (p + (4 + blockSize reserved + children.size)) rest

theorem blockSize_mod (reserved : Option (List UInt8)) : blockSize reserved % 4 = 0 := by
  cases reserved with
  | none => rfl
  | some block => exact alignUp_mod _

theorem size_mod (f : Forest) : f.size % 4 = 0 := by
  induction f with
  | nil => rfl
  | leaf type payload rest ih =>
    have := alignUp_mod (4 + payload.bytes.length)
    rw [size]
    omega
  | nest type reserved children rest ihc ihr =>
    have := blockSize_mod reserved
    rw [size]
    omega

/-- A layout depends only on the bytes it covers. -/
theorem Layout.congr {f : Forest} {m m' : Memory} {p : ℕ} (h : f.Layout m p)
    (same : ∀ i, p ≤ i → i < p + f.size → m' i = m i) : f.Layout m' p := by
  induction f generalizing p with
  | nil => trivial
  | leaf type payload rest ih =>
    obtain ⟨len, kind, data, after⟩ := h
    have lower := le_alignUp (4 + payload.bytes.length)
    rw [size] at same
    refine ⟨?_, ?_, ?_, ?_⟩
    · exact (Memory.u16_congr fun i lo hi => same i (by omega) (by omega)).trans len
    · exact (Memory.u16_congr fun i lo hi => same i (by omega) (by omega)).trans kind
    · exact data.congr fun i lo hi => same i (by omega) (by omega)
    · exact ih after fun i lo hi => same i (by omega) (by omega)
  | nest type reserved children rest ihc ihr =>
    obtain ⟨len, kind, inner, after⟩ := h
    rw [size] at same
    refine ⟨?_, ?_, ?_, ?_⟩
    · exact (Memory.u16_congr fun i lo hi => same i (by omega) (by omega)).trans len
    · exact (Memory.u16_congr fun i lo hi => same i (by omega) (by omega)).trans kind
    · exact ihc inner fun i lo hi => same i (by omega) (by omega)
    · exact ihr after fun i lo hi => same i (by omega) (by omega)

end Forest

/-! ### Writing establishes the layout -/

/-- One message continues another: same capacity, still valid, `n` bytes longer,
and nothing below the old length has changed behind the length field. -/
structure Continues (msg msg' : Nlmsg) (n : ℕ) : Prop where
  valid : msg'.Valid
  cap : msg'.cap = msg.cap
  grows : msg'.len = msg.len + n
  frame : ∀ i, 4 ≤ i → i < msg.len → msg'.nlmsghdr i = msg.nlmsghdr i

namespace Continues

variable {msg msg' msg'' : Nlmsg} {n k : ℕ}

theorem refl (valid : msg.Valid) : Continues msg msg 0 := ⟨valid, rfl, rfl, fun _ _ _ => rfl⟩

theorem trans (first : Continues msg msg' n) (second : Continues msg' msg'' k) :
    Continues msg msg'' (n + k) := by
  have grows := first.grows
  refine ⟨second.valid, second.cap.trans first.cap, ?_, fun i lo hi => ?_⟩
  · rw [second.grows, grows, Nat.add_assoc]
  · rw [second.frame i lo (by omega), first.frame i lo hi]

/-- Closing the nest that begins at the old end patches nothing below that end. -/
theorem closeNest (inside : Continues msg msg' n) (header : 16 ≤ msg.len) :
    Continues msg (nlaEndNested msg' msg.len) n := by
  have grows := inside.grows
  have closed := nlaEndNested_spec inside.valid header (by omega)
  have valid := inside.valid
  refine ⟨⟨?_, ?_, ?_, ?_⟩, closed.cap.trans inside.cap, closed.len.trans grows, fun i lo hi => ?_⟩
  · rw [closed.len]
    exact valid.aligned
  · rw [closed.len]
    exact valid.header
  · rw [closed.len, closed.cap]
    exact valid.within
  · rw [closed.cap]
    exact valid.word
  · rw [closed.frame i (.inl hi), inside.frame i lo hi]

end Continues

theorem Put.continues {msg msg' : Nlmsg} {attr : ℤ} {data : List UInt8} (valid : msg.Valid)
    (put : Put msg msg' attr data) : Continues msg msg' (alignUp (4 + data.length)) := by
  have aligned := valid.aligned
  have header := valid.header
  have grows := put.grows
  have rounded := alignUp_mod (4 + data.length)
  refine ⟨⟨by omega, by omega, ?_, ?_⟩, put.cap, grows, fun i lo hi => put.frame i lo (.inl hi)⟩
  · rw [put.cap, grows]
    exact put.room
  · rw [put.cap]
    exact valid.word

/-- A size that is counted exactly is accepted only if the message has the room. -/
theorem length_le_of_nlmsgReserve {msg msg' : Nlmsg} {n buf : ℕ} (counted : n ≤ 2 ^ 32 - 4)
    (reserve : nlmsgReserve msg n = (some buf, msg')) : n ≤ msg.cap := by
  by_contra large
  have full : msg.cap < (msg.len + alignSize n) % 2 ^ 64 := by
    have lower := le_alignUp n
    have upper := alignSize_le n
    have word : msg.len < 2 ^ 32 := Memory.u32_lt
    rw [alignSize_eq counted] at upper ⊢
    omega
  simp only [nlmsgReserve, if_pos full] at reserve
  cases reserve

theorem reserveBlock_continues {msg msg' : Nlmsg} {reserved : Option (List UInt8)}
    (valid : msg.Valid) (small : msg.cap < 2 ^ 16) (counted : BlockCounted reserved)
    (done : reserveBlock msg reserved = some msg') :
    Continues msg msg' (blockSize reserved) := by
  cases reserved with
  | none =>
    obtain rfl := Option.some.inj done
    exact .refl valid
  | some block =>
    rcases reserve : nlmsgReserve msg block.length with ⟨_ | buf, msg₁⟩
    · simp [reserveBlock, reserve] at done
    · simp only [reserveBlock, reserve] at done
      obtain rfl := Option.some.inj done
      -- A block that stays inside the message is short enough for exact arithmetic.
      have inside := length_le_of_nlmsgReserve (counted block rfl) reserve
      rcases nlmsgReserve_spec valid block.length (by omega) with
        ⟨-, failed⟩ | ⟨msg₂, success, spec⟩
      · rw [failed] at reserve
        cases reserve
      · rw [success] at reserve
        obtain ⟨h, rfl⟩ := Prod.mk.inj reserve
        obtain rfl := Option.some.inj h
        have header : 16 ≤ msg.len := valid.header
        have aligned := valid.aligned
        have rounded := alignUp_mod block.length
        have room := spec.room
        have grows : (Nlmsg.mk (msg₂.nlmsghdr.write msg.len block) msg₂.cap).len =
            msg.len + alignUp block.length := by
          rw [← spec.grows]
          exact Memory.u32_congr fun i lo hi => Memory.write_apply_outside (.inl (by omega))
        refine ⟨⟨?_, ?_, ?_, ?_⟩, spec.cap, grows, fun i lo hi => ?_⟩
        · rw [grows]
          omega
        · rw [grows]
          exact Nat.le_add_right_of_le header
        · rw [grows, spec.cap]
          exact room
        · rw [spec.cap]
          exact valid.word
        · rw [← spec.frame i lo (.inl (by omega))]
          exact Memory.write_apply_outside (.inl hi)

namespace Forest

/-- What a written leaf consists of. -/
theorem write_leaf {type : UInt16} {payload : Payload} {rest : Forest} {msg msg' : Nlmsg}
    {ps : List Placed} (valid : msg.Valid) (small : msg.cap < 2 ^ 16)
    (counted : payload.bytes.length ≤ 2 ^ 32 - 8)
    (done : (leaf type payload rest).write msg = some (ps, msg')) :
    ∃ msg₁ tail, Put msg msg₁ type.toNat payload.bytes ∧ rest.write msg₁ = some (tail, msg') ∧
      ps = ⟨type, msg.len, .leaf payload⟩ :: tail := by
  rcases call : nlaPut msg type.toNat payload.bytes with ⟨ret, msg₁⟩
  simp only [write, payload.put_eq, valid.tail, call] at done
  split_ifs at done with success
  have inside := (nlaPut_eq_zero msg type.toNat payload.bytes).mp (by rw [call, success])
  have lower := le_alignUp (4 + payload.bytes.length)
  rw [countedRoom_eq counted] at inside
  rcases nlaPut_spec valid type.toNat payload.bytes (by omega) with ⟨-, failed⟩ | ⟨msg₂, ok, put⟩
  · rw [failed, success] at call
    exact absurd (Prod.mk.inj call).1 (by decide)
  · rw [ok] at call
    obtain ⟨-, rfl⟩ := Prod.mk.inj call
    rcases after : rest.write msg₂ with _ | ⟨tail, msg₃⟩
    · simp [after] at done
    · simp only [after, Option.some.injEq, Prod.mk.injEq] at done
      obtain ⟨rfl, rfl⟩ := done
      exact ⟨msg₂, tail, put, after, rfl⟩

/-- What a written nest consists of. -/
theorem write_nest {type : UInt16} {reserved : Option (List UInt8)} {children rest : Forest}
    {msg msg' : Nlmsg} {ps : List Placed} (valid : msg.Valid)
    (done : (nest type reserved children rest).write msg = some (ps, msg')) :
    ∃ msg₁ msg₂ msg₃ inner tail, Put msg msg₁ type.toNat [] ∧
      reserveBlock msg₁ reserved = some msg₂ ∧ children.write msg₂ = some (inner, msg₃) ∧
      rest.write (nlaEndNested msg₃ msg.len) = some (tail, msg') ∧
      ps = ⟨type, msg.len, .nest reserved children⟩ :: tail := by
  rcases nlaBeginNested_spec valid type.toNat with ⟨-, failed⟩ | ⟨msg₁, opened, put⟩
  · simp [write, failed] at done
  · simp only [write, opened] at done
    rcases block : reserveBlock msg₁ reserved with _ | msg₂
    · simp [block] at done
    simp only [block] at done
    rcases nested : children.write msg₂ with _ | ⟨inner, msg₃⟩
    · simp [nested] at done
    simp only [nested] at done
    rcases after : rest.write (nlaEndNested msg₃ msg.len) with _ | ⟨tail, msg₄⟩
    · simp [after] at done
    simp only [after, Option.some.injEq, Prod.mk.injEq] at done
    obtain ⟨rfl, rfl⟩ := done
    exact ⟨msg₁, msg₂, msg₃, inner, tail, put, block, nested, after, rfl⟩

/-- **Writing establishes the layout.** A forest that was written without failure
lies at the old end of the message, its first level where the calls put it. -/
theorem write_layout (f : Forest) {msg msg' : Nlmsg} {ps : List Placed} (valid : msg.Valid)
    (small : msg.cap < 2 ^ 16) (counted : f.Counted) (done : f.write msg = some (ps, msg')) :
    Continues msg msg' f.size ∧ f.Layout msg'.nlmsghdr msg.len ∧ ps = f.placed msg.len := by
  -- Induction on the forest, in the order in which the calls write it.
  induction f generalizing msg msg' ps with
  | nil =>
    obtain ⟨rfl, rfl⟩ := Prod.mk.inj (Option.some.inj done)
    exact ⟨.refl valid, trivial, rfl⟩
  | leaf type payload rest ih =>
    obtain ⟨msg₁, tail, put, after, rfl⟩ := write_leaf valid small counted.1 done
    have header : 16 ≤ msg.len := valid.header
    have first := put.continues valid
    have grows := first.grows
    have lower := le_alignUp (4 + payload.bytes.length)
    obtain ⟨second, layout, rfl⟩ := ih first.valid (first.cap ▸ small) counted.2 after
    have room := put.room
    -- The attribute lies below the length the rest was written from.
    have kept (i : ℕ) (lo : msg.len ≤ i) (hi : i < msg₁.len) :
        msg'.nlmsghdr i = msg₁.nlmsghdr i := second.frame i (by omega) hi
    refine ⟨first.trans second, ⟨?_, ?_, ?_, ?_⟩, ?_⟩
    · rw [rtaLen, Memory.u16_congr fun i lo hi => kept i (by omega) (by omega), ← rtaLen, put.size]
      omega
    · rw [rtaType, Memory.u16_congr fun i lo hi => kept i (by omega) (by omega), ← rtaType,
        put.type]
      have := type.toNat_lt
      omega
    · exact put.payload.congr fun i lo hi => kept i (by omega) (by omega)
    · rwa [grows] at layout
    · rw [placed, grows]
  | nest type reserved children rest ihc ihr =>
    obtain ⟨msg₁, msg₂, msg₃, inner, tail, put, block, nested, after, rfl⟩ := write_nest valid done
    have header : 16 ≤ msg.len := valid.header
    have opened : Continues msg msg₁ 4 := put.continues valid
    obtain ⟨countedBlock, countedChildren, countedRest⟩ := counted
    have reserve := reserveBlock_continues opened.valid (opened.cap ▸ small) countedBlock block
    have before := opened.trans reserve
    obtain ⟨inside, layout, -⟩ := ihc before.valid (before.cap ▸ small) countedChildren nested
    have through := (before.trans inside).closeNest header
    have closed := nlaEndNested_spec inside.valid header (by
      rw [(before.trans inside).grows]
      omega)
    obtain ⟨last, restLayout, rfl⟩ := ihr through.valid (through.cap ▸ small) countedRest after
    have len₁ := opened.grows
    have len₂ := before.grows
    have len₃ := (before.trans inside).grows
    have len₄ := through.grows
    have within := inside.valid.within
    have cap₃ := (before.trans inside).cap
    -- Nothing written after the closing touches the nest, which closing only patched.
    have kept (i : ℕ) (lo : msg.len ≤ i) (hi : i < msg₃.len) :
        msg'.nlmsghdr i = (nlaEndNested msg₃ msg.len).nlmsghdr i :=
      last.frame i (by omega) (by omega)
    refine ⟨through.trans last, ⟨?_, ?_, ?_, ?_⟩, ?_⟩
    · rw [rtaLen, Memory.u16_congr fun i lo hi => kept i (by omega) (by omega), ← rtaLen,
        closed.size]
      omega
    · -- The type was stored when the nest was opened, and no later store reaches it.
      have typed (i : ℕ) (lo : msg.len + 2 ≤ i) (hi : i < msg.len + 2 + 2) :
          msg'.nlmsghdr i = msg₁.nlmsghdr i := by
        rw [kept i (by omega) (by omega), closed.frame i (.inr lo),
          (reserve.trans inside).frame i (by omega) (by omega)]
      rw [rtaType, Memory.u16_congr typed, ← rtaType, put.type]
      have := type.toNat_lt
      omega
    · rw [len₂, ← Nat.add_assoc] at layout
      refine layout.congr fun i lo hi => ?_
      rw [kept i (by omega) (by omega), closed.frame i (.inr (by omega))]
    · rwa [len₄] at restLayout
    · rw [placed, len₄]

end Forest

/-! ### Parsing a layout -/

/-- File attributes one after the other, later ones over earlier ones. -/
def fileAll (max : ℤ) (tb : AttrTable) (ps : List Placed) : AttrTable :=
  ps.foldl (fun tb a =>
    if (a.type.toNat : ℤ) ≤ max then Function.update tb a.type.toNat (some a.rta) else tb) tb

/-- The offset of the last attribute of a type. -/
def lastPlaced (ps : List Placed) (t : ℕ) : Option ℕ :=
  (ps.filter fun a => a.type.toNat = t).getLast?.map Placed.rta

/-- Filing leaves the last attribute of each type in the table. -/
theorem fileAll_apply {max : ℤ} {t : ℕ} (listed : (t : ℤ) ≤ max) (tb : AttrTable)
    (ps : List Placed) : fileAll max tb ps t = (lastPlaced ps t).or (tb t) := by
  induction ps generalizing tb with
  | nil => rfl
  | cons a ps ih =>
    rw [fileAll, List.foldl_cons, ← fileAll, ih, lastPlaced, lastPlaced]
    by_cases same : a.type.toNat = t
    · -- This attribute counts unless a later one of its type does.
      rw [List.filter_cons_of_pos (by simpa using same), List.getLast?_cons, same, if_pos listed,
        Function.update_self]
      cases (ps.filter fun a => a.type.toNat = t).getLast? <;> rfl
    · rw [List.filter_cons_of_neg (by simpa using same)]
      split_ifs
      · rw [Function.update_of_ne (Ne.symm same)]
      · rfl

namespace Forest

variable {m : Memory}

/-- The parser runs through a layout from one end to the other and files every
attribute of its first level. -/
theorem Layout.parse {f : Forest} {p : ℕ} (layout : f.Layout m p) (range : f.size < 2 ^ 31)
    (tb : AttrTable) (max : ℤ) :
    nlParseRtattr m tb max p f.size = ((p + f.size, 0), fileAll max tb (f.placed p)) := by
  -- Induction on the first level only: the parser steps over the contents of a nest.
  induction f generalizing p tb with
  | nil => exact nlParseRtattr_stop (rtaCursor_short (by decide))
  | leaf type payload rest ih =>
    obtain ⟨len, kind, -, after⟩ := layout
    have lower := le_alignUp (4 + payload.bytes.length)
    rw [size] at range ⊢
    rw [nlParseRtattr_step len (by omega) (by omega) (by omega), Nat.cast_add,
      add_sub_cancel_left, ih after (by omega), fileAttr_eq, kind, Nat.add_assoc]
    rfl
  | nest type reserved children rest ihc ihr =>
    obtain ⟨len, kind, -, after⟩ := layout
    have aligned : (4 + blockSize reserved + children.size) % 4 = 0 := by
      have := blockSize_mod reserved
      have := children.size_mod
      omega
    rw [size] at range ⊢
    rw [nlParseRtattr_step len (by omega) (by omega) (by omega), alignUp_of_mod aligned,
      Nat.cast_add, add_sub_cancel_left, ihr after (by omega), fileAttr_eq, kind, Nat.add_assoc p]
    rfl

/-- Parsing a layout leaves nothing over, and a table of the last attribute of each
type. -/
theorem Layout.table {f : Forest} {p : ℕ} (layout : f.Layout m p) (range : f.size < 2 ^ 31)
    (max : ℤ) :
    (nlParseRtattr m (fun _ => none) max p f.size).1.2 = 0 ∧
      ∀ t : ℕ, (t : ℤ) ≤ max →
        (nlParseRtattr m (fun _ => none) max p f.size).2 t = lastPlaced (f.placed p) t := by
  rw [layout.parse range]
  exact ⟨rfl, fun t listed => (fileAll_apply listed _ _).trans Option.or_none⟩

end Forest

/-- The bytes from offset `p` on, `len` of them, parse back into the forest: the
parser ends with nothing left and a table of the last attribute of each type; each
leaf has its length and its payload; and each nest parses back in the same way,
behind its reserved block. -/
inductive Decodes (m : Memory) : ℕ → ℤ → Forest → Prop
  | intro {p : ℕ} {len : ℤ} {f : Forest}
      (table : ∀ max : ℤ, max ≤ 65535 →
        (nlParseRtattr m (fun _ => none) max p len).1.2 = 0 ∧
          ∀ t : ℕ, (t : ℤ) ≤ max →
            (nlParseRtattr m (fun _ => none) max p len).2 t = lastPlaced (f.placed p) t)
      (leaves : ∀ a ∈ f.placed p, ∀ payload, a.node = .leaf payload →
        rtaLen m a.rta = 4 + payload.bytes.length ∧
          m.read (a.rta + 4) payload.bytes.length = payload.bytes)
      (nests : ∀ a ∈ f.placed p, ∀ reserved children, a.node = .nest reserved children →
        Decodes m (a.rta + 4 + blockSize reserved)
          (rtaLen m a.rta - (4 + blockSize reserved) : ℤ) children) :
      Decodes m p len f

namespace Forest

variable {m : Memory}

/-- The attributes of the first level of a layout are as written, and the nests
among them decode. -/
theorem Layout.nodes {f : Forest} {p : ℕ} (layout : f.Layout m p) (range : f.size < 2 ^ 31) :
    (∀ a ∈ f.placed p, ∀ payload, a.node = .leaf payload →
      rtaLen m a.rta = 4 + payload.bytes.length ∧
        m.read (a.rta + 4) payload.bytes.length = payload.bytes) ∧
    (∀ a ∈ f.placed p, ∀ reserved children, a.node = .nest reserved children →
      Decodes m (a.rta + 4 + blockSize reserved)
        (rtaLen m a.rta - (4 + blockSize reserved) : ℤ) children) := by
  induction f generalizing p with
  | nil => simp [placed]
  | leaf type payload rest ih =>
    obtain ⟨len, -, data, after⟩ := layout
    rw [size] at range
    obtain ⟨leaves, nests⟩ := ih after (by omega)
    constructor
    · intro a ha payload' node
      rcases List.mem_cons.mp ha with rfl | later
      · obtain rfl := Node.leaf.inj node
        exact ⟨len, data⟩
      · exact leaves a later payload' node
    · intro a ha reserved children node
      rcases List.mem_cons.mp ha with rfl | later
      · cases node
      · exact nests a later reserved children node
  | nest type reserved children rest ihc ihr =>
    obtain ⟨len, -, inner, after⟩ := layout
    rw [size] at range
    obtain ⟨leaves, nests⟩ := ihr after (by omega)
    constructor
    · intro a ha payload node
      rcases List.mem_cons.mp ha with rfl | later
      · cases node
      · exact leaves a later payload node
    · intro a ha reserved' children' node
      rcases List.mem_cons.mp ha with rfl | later
      · -- A nest is parsed behind its block, over the length it announces.
        obtain ⟨rfl, rfl⟩ := Node.nest.inj node
        obtain ⟨innerLeaves, innerNests⟩ := ihc inner (by omega)
        have rest : (rtaLen m p - (4 + blockSize reserved) : ℤ) = children.size := by omega
        rw [rest]
        exact .intro (fun max _ => inner.table (by omega) max) innerLeaves innerNests
      · exact nests a later reserved' children' node

/-- A layout decodes into its forest, at every depth. -/
theorem Layout.decodes {f : Forest} {p : ℕ} (layout : f.Layout m p) (range : f.size < 2 ^ 31) :
    Decodes m p f.size f := by
  obtain ⟨leaves, nests⟩ := layout.nodes range
  exact .intro (fun max _ => layout.table range max) leaves nests

/-- Allocate a message, reserve an optional fixed header in it, and write a forest
behind that header. -/
def build (forest : Forest) (shell : Bool) (block : Option Memory) (size : ℕ)
    (header : Option (List UInt8)) : Option (List Placed × Nlmsg) :=
  match nlmsgAlloc shell block size with
  | some msg =>
    match reserveBlock msg header with
    | some msg₁ => forest.write msg₁
    | none => none
  | none => none

/-- Nothing can be parsed behind a block that is longer than what there is. -/
theorem blockCounted_of_table {reserved : Option (List UInt8)} {p : ℕ} {len : ℤ}
    (short : len < 2 ^ 32)
    (ends : (nlParseRtattr m (fun _ => none) 0 p (len - blockSize reserved)).1.2 = 0) :
    BlockCounted reserved := by
  rintro block rfl
  by_contra large
  have lower : 2 ^ 32 ≤ blockSize (some block) := by
    rw [blockSize, alignUp]
    omega
  rw [nlParseRtattr_stop (rtaCursor_short (by omega))] at ends
  dsimp only at ends
  omega

/-- An attribute's length field has 16 bits, so what decodes was counted exactly. -/
theorem counted_of_nodes {f : Forest} {p : ℕ}
    (leaves : ∀ a ∈ f.placed p, ∀ payload, a.node = .leaf payload →
      rtaLen m a.rta = 4 + payload.bytes.length ∧
        m.read (a.rta + 4) payload.bytes.length = payload.bytes)
    (nests : ∀ a ∈ f.placed p, ∀ reserved children, a.node = .nest reserved children →
      Decodes m (a.rta + 4 + blockSize reserved)
        (rtaLen m a.rta - (4 + blockSize reserved) : ℤ) children) : f.Counted := by
  induction f generalizing p with
  | nil => trivial
  | leaf type payload rest ih =>
    have size : rtaLen m p = 4 + payload.bytes.length :=
      (leaves _ (List.mem_cons_self ..) payload rfl).1
    have field : rtaLen m p < 2 ^ 16 := Memory.u16_lt
    refine ⟨by omega, ?_⟩
    exact ih (fun a later => leaves a (List.mem_cons_of_mem _ later))
      fun a later => nests a (List.mem_cons_of_mem _ later)
  | nest type reserved children rest ihc ihr =>
    obtain ⟨table, innerLeaves, innerNests⟩ := nests _ (List.mem_cons_self ..) reserved children rfl
    have field : rtaLen m p < 2 ^ 16 := Memory.u16_lt
    refine ⟨?_, ihc innerLeaves innerNests, ?_⟩
    · have ends := (table 0 (by decide)).1
      dsimp only at ends
      rw [← sub_sub] at ends
      exact blockCounted_of_table (by omega) ends
    · exact ihr (fun a later => leaves a (List.mem_cons_of_mem _ later))
        fun a later => nests a (List.mem_cons_of_mem _ later)

/-- What decodes has sizes that were counted exactly, at every depth. -/
theorem counted_of_decodes {f : Forest} {p : ℕ} {len : ℤ} (decodes : Decodes m p len f) :
    f.Counted := by
  obtain ⟨-, leaves, nests⟩ := decodes
  exact counted_of_nodes leaves nests

/-- What a built message consists of. -/
theorem build_some {forest : Forest} {shell : Bool} {block : Option Memory} {size : ℕ}
    {header : Option (List UInt8)} {ps : List Placed} {msg : Nlmsg}
    (built : forest.build shell block size header = some (ps, msg)) :
    ∃ msg₀ msg₁, nlmsgAlloc shell block size = some msg₀ ∧ reserveBlock msg₀ header = some msg₁ ∧
      forest.write msg₁ = some (ps, msg) := by
  unfold build at built
  rcases alloc : nlmsgAlloc shell block size with _ | msg₀
  · simp [alloc] at built
  rcases reserved : reserveBlock msg₀ header with _ | msg₁
  · simp [alloc, reserved] at built
  simp only [alloc, reserved] at built
  exact ⟨msg₀, msg₁, rfl, reserved, built⟩

/-- **Decoding undoes encoding, for sizes that are counted exactly.** Build a forest
in a message of at most `NLMSG_GOOD_SIZE`, all calls returning success. Then the
attribute area, from behind the fixed header to the end of the message, parses back
into the forest, whose first level stands where the calls put it, if and only if no
size is cut by the 32-bit rounding. -/
theorem build_decodes_iff {forest : Forest} {shell : Bool} {block : Option Memory} {size : ℕ}
    {header : Option (List UInt8)} {ps : List Placed} {msg : Nlmsg} (small : size ≤ nlmsgGoodSize)
    (built : forest.build shell block size header = some (ps, msg)) :
    (ps = forest.placed (nlmsgHdrlen + blockSize header) ∧
      Decodes msg.nlmsghdr (nlmsgHdrlen + blockSize header)
        (msg.len - (nlmsgHdrlen + blockSize header) : ℤ) forest) ↔
      BlockCounted header ∧ forest.Counted := by
  constructor
  · rintro ⟨-, decodes⟩
    have word : msg.len < 2 ^ 32 := Memory.u32_lt
    refine ⟨?_, counted_of_decodes decodes⟩
    obtain ⟨table, -, -⟩ := decodes
    have ends := (table 0 (by decide)).1
    rw [← sub_sub] at ends
    exact blockCounted_of_table (by omega) ends
  · rintro ⟨countedHeader, counted⟩
    rw [nlmsgGoodSize] at small
    obtain ⟨msg₀, msg₁, alloc, reserved, written⟩ := build_some built
    -- In a message this small no attribute length is cut to its 16 bits.
    have cap : msg₀.cap < 2 ^ 16 := by
      rw [nlmsgAlloc_cap alloc, alignSize_eq (by omega), nlmsgHdrlen]
      have : alignUp size ≤ 8192 := alignUp_le (by decide) small
      omega
    have first := reserveBlock_continues (nlmsgAlloc_valid (by omega) alloc) cap countedHeader
      reserved
    have small₁ : msg₁.cap < 2 ^ 16 := by
      rw [first.cap]
      exact cap
    have start : msg₁.len = nlmsgHdrlen + blockSize header := by
      rw [first.grows, nlmsgAlloc_len alloc]
    obtain ⟨second, layout, rfl⟩ := forest.write_layout first.valid small₁ counted written
    rw [start] at layout
    have within := second.valid.within
    have grows := second.grows
    have cap₂ := second.cap
    have area : (msg.len - (nlmsgHdrlen + blockSize header) : ℤ) = forest.size := by omega
    rw [area, start]
    exact ⟨rfl, layout.decodes (by omega)⟩

/-- A nest with a one-byte block and a string, followed by a short number. -/
def linkInfo : Forest :=
  .nest 18 (some [7]) (.leaf 1 (.string [118, 101, 116, 104]) .nil) (.leaf 3 (.u16 5) .nil)

/-- Both levels of `linkInfo` decode behind a fixed header of one byte. -/
theorem build_decodes_linkInfo :
    ∃ ps msg, linkInfo.build true (some fun _ => 0xFF) 64 (some [2]) = some (ps, msg) ∧
      Decodes msg.nlmsghdr 20 (msg.len - 20) linkInfo := by
  obtain ⟨⟨ps, msg⟩, built⟩ := Option.isSome_iff_exists.mp
    (show (linkInfo.build true (some fun _ => 0xFF) 64 (some [2])).isSome = true by decide)
  have counted : BlockCounted (some [2]) ∧ linkInfo.Counted := by
    refine ⟨?_, ?_, ⟨by decide, trivial⟩, by decide, trivial⟩
    · rintro block ⟨⟩
      decide
    · rintro block ⟨⟩
      decide
  exact ⟨ps, msg, built, ((build_decodes_iff (by decide) built).mpr counted).2⟩

/-- An attribute of `n` zero bytes. -/
def zeros (n : ℕ) : Forest := .leaf 1 (.buffer (List.replicate n 0)) .nil

/-- A fresh message of 16 bytes takes an attribute of `2 ^ 32 - 4`, and counts no room for
it: the parser does not find the attribute. -/
theorem build_loses_attribute :
    ∃ ps msg, (zeros (2 ^ 32 - 4)).build true (some fun _ => 0) 0 none = some (ps, msg) ∧
      lastPlaced ps 1 = some 16 ∧ msg.len = 16 ∧
      (nlParseRtattr msg.nlmsghdr (fun _ => none) 65535 16 (msg.len - 16)).2 1 = none := by
  obtain ⟨fresh, alloc⟩ : ∃ msg, nlmsgAlloc true (some fun _ => 0) 0 = some msg := ⟨_, rfl⟩
  have tail : nlmsgTail fresh = 16 := by
    rw [nlmsgTail, nlmsgAlloc_len alloc, nlmsgHdrlen]
    decide
  have room : countedRoom (2 ^ 32 - 4) = 0 := by decide
  have fits : nlmsgTail fresh + countedRoom (2 ^ 32 - 4) ≤ fresh.cap := by
    rw [tail, room, nlmsgAlloc_cap alloc, nlmsgHdrlen]
    omega
  generalize count : 2 ^ 32 - 4 = n at room fits
  rcases put : nlaPut fresh 1 (List.replicate n 0) with ⟨ret, msg⟩
  have success : ret = 0 := by
    have zero := (nlaPut_eq_zero fresh 1 (List.replicate n 0)).mpr (by rwa [List.length_replicate])
    rwa [put] at zero
  have len : msg.len = 16 := by
    have after := congrArg (fun result => result.2.len) put
    rw [nlaPut_eq, List.length_replicate, if_neg (by omega)] at after
    rw [← after, tail, room]
    exact Memory.u32_setU32_same
  refine ⟨[⟨1, 16, .leaf (.buffer (List.replicate n 0))⟩], msg, ?_, rfl, len, ?_⟩
  · have written : (zeros n).write fresh =
        some ([⟨1, 16, .leaf (.buffer (List.replicate n 0))⟩], msg) := by
      have call : Payload.put fresh ((1 : UInt16).toNat) (.buffer (List.replicate n 0)) =
          (ret, msg) := put
      rw [zeros, write, call]
      dsimp only
      rw [if_pos success, write, tail]
    rw [build, alloc]
    exact written
  · rw [len, nlParseRtattr_stop (rtaCursor_short (by decide))]

end Forest

end LinuxProgram.Netlink
