import LinuxProgram.Base.Systems
import LinuxProgram.Netlink.Builder

/-!
# Building sessions

A session allocates one message and then makes any sequence of building calls,
in any order, some of which may fail for lack of room. In between the caller
may store into the blocks it reserved and into the header fields other than the
length.

Besides the message, a session remembers which nests were opened, which blocks
were handed out, and where alignment padding was left. `Session.Inv` ties them
together: the length is aligned and within the capacity, everything behind it is
zero, and so is all padding in front of it, because no later store can reach it.
-/

namespace LinuxProgram.Netlink

open Base

/-- A call of the building interface, or a store made by the caller. -/
inductive BuildCall
  | reserve (len : ℕ)
  | putBuffer (attr : ℤ) (data : List UInt8)
  | putString (attr : ℤ) (s : List UInt8)
  | putU32 (attr value : ℤ)
  | putU16 (attr : ℤ) (value : ℕ)
  | putAttr (attr : ℤ)
  | beginNested (attr : ℤ)
  | endNested (attr : ℕ)
  | store (off : ℕ) (bytes : List UInt8)

/-- A message under construction and what its caller knows about it. -/
structure Session where
  msg : Nlmsg
  /-- Pointers returned by `nla_begin_nested`. -/
  nests : List ℕ
  /-- Start and requested length of each block returned by `nlmsg_reserve`. -/
  blocks : List (ℕ × ℕ)
  /-- Start and end of each stretch of alignment padding. -/
  pads : List (ℕ × ℕ)

namespace Session

/-- Take note of the result of a put with `n` payload bytes. -/
def put (s : Session) (result : ℤ × Nlmsg) (n : ℕ) : Bool × Session :=
  if result.1 = 0 then
    (true, { s with msg := result.2, pads := (nlmsgTail s.msg + 4 + n, result.2.len) :: s.pads })
  else (false, { s with msg := result.2 })

/-- Make one call. The Boolean tells whether it succeeded. -/
def perform (s : Session) : BuildCall → Bool × Session
  | .reserve len =>
    match nlmsgReserve s.msg len with
    | (some buf, msg) =>
      (true, { s with
        msg
        blocks := (buf, len) :: s.blocks
        pads := (buf + len, msg.len) :: s.pads })
    | (none, msg) => (false, { s with msg })
  | .putBuffer attr data => s.put (nlaPutBuffer s.msg attr data) data.length
  | .putString attr str => s.put (nlaPutString s.msg attr str) (cString str).length
  | .putU32 attr value => s.put (nlaPutU32 s.msg attr value) 4
  | .putU16 attr value => s.put (nlaPutU16 s.msg attr value) 2
  | .putAttr attr => s.put (nlaPutAttr s.msg attr) 0
  | .beginNested attr =>
    match nlaBeginNested s.msg attr with
    | (some rtattr, msg) => (true, { s with msg, nests := rtattr :: s.nests })
    | (none, msg) => (false, { s with msg })
  | .endNested attr => (true, { s with msg := nlaEndNested s.msg attr })
  | .store off bytes =>
    (true, { s with msg := { s.msg with nlmsghdr := s.msg.nlmsghdr.write off bytes } })

/-- The calls a well-behaved caller makes: lengths below `2 ^ 31`, nests closed
through the pointer that opened them, and stores that stay inside a reserved
block or inside the header behind `nlmsg_len`. -/
def Allows (s : Session) : BuildCall → Prop
  | .reserve len => len < 2 ^ 31
  | .putBuffer _ data => data.length < 2 ^ 31
  | .putString _ str => str.length < 2 ^ 31
  | .endNested attr => attr ∈ s.nests
  | .store off bytes =>
    (∃ b ∈ s.blocks, b.1 ≤ off ∧ off + bytes.length ≤ b.1 + b.2) ∨
      (4 ≤ off ∧ off + bytes.length ≤ nlmsgHdrlen)
  | .putU32 _ _ | .putU16 _ _ | .putAttr _ | .beginNested _ => True

/-- All sessions on a message of the given size. -/
def system (size : ℕ) : System Session BuildCall where
  init s := ∃ shell block, nlmsgAlloc shell block size = some s.msg ∧
    s.nests = [] ∧ s.blocks = [] ∧ s.pads = []
  step s call s' := s.Allows call ∧ (s.perform call).2 = s'

/-- The invariant of a session. -/
structure Inv (s : Session) : Prop where
  valid : s.msg.Valid
  zeroTail : ∀ i, s.msg.len ≤ i → i < s.msg.cap → s.msg.nlmsghdr i = 0
  nestsInside : ∀ p ∈ s.nests, nlmsgHdrlen ≤ p ∧ p + 4 ≤ s.msg.len
  blocksInside : ∀ b ∈ s.blocks, nlmsgHdrlen ≤ b.1 ∧ b.1 + b.2 ≤ s.msg.len
  padsInside : ∀ q ∈ s.pads, nlmsgHdrlen ≤ q.1 ∧ q.2 ≤ s.msg.len
  padsZero : ∀ q ∈ s.pads, ∀ i, q.1 ≤ i → i < q.2 → s.msg.nlmsghdr i = 0
  padsOffNests : ∀ q ∈ s.pads, ∀ p ∈ s.nests, q.2 ≤ p ∨ p + 4 ≤ q.1
  padsOffBlocks : ∀ q ∈ s.pads, ∀ b ∈ s.blocks, q.2 ≤ b.1 ∨ b.1 + b.2 ≤ q.1

variable {s : Session}

/-- A call that only patches bytes below the length, away from the length field
and from all padding, keeps the invariant. -/
theorem Inv.patch (inv : s.Inv) {msg : Nlmsg} (lo hi : ℕ) (cap : msg.cap = s.msg.cap)
    (lower : 4 ≤ lo) (upper : hi ≤ s.msg.len) (offPads : ∀ q ∈ s.pads, q.2 ≤ lo ∨ hi ≤ q.1)
    (frame : ∀ i, i < lo ∨ hi ≤ i → msg.nlmsghdr i = s.msg.nlmsghdr i) :
    ({ s with msg } : Session).Inv := by
  -- The length field lies in front of the patch.
  have len : msg.len = s.msg.len := Memory.u32_congr fun i _ bound => frame i (.inl (by omega))
  obtain ⟨valid, zeroTail, nestsInside, blocksInside, padsInside, padsZero, offNests, offBlocks⟩ :=
    inv
  refine ⟨⟨?_, ?_, ?_, ?_⟩, ?_, ?_, ?_, ?_, ?_, offNests, offBlocks⟩
  · exact len ▸ valid.aligned
  · exact len ▸ valid.header
  · exact len ▸ cap ▸ valid.within
  · exact cap ▸ valid.word
  · intro i behind inside
    rw [len] at behind
    rw [cap] at inside
    dsimp only
    rw [frame i (.inr (by omega))]
    exact zeroTail i behind inside
  · exact fun p hp => len ▸ nestsInside p hp
  · exact fun b hb => len ▸ blocksInside b hb
  · exact fun q hq => len ▸ padsInside q hq
  · intro q hq i start stop
    dsimp only
    rw [frame i (by have := offPads q hq; omega)]
    exact padsZero q hq i start stop

/-- What a call adds to a session when it moves the length: the new nest, block
and padding lie between the old and the new length, the padding is zero and apart
from the nest and the block, and no other byte behind the header changes. -/
structure Growth (s : Session) (msg : Nlmsg) (nests : List ℕ) (blocks pads : List (ℕ × ℕ)) :
    Prop where
  cap : msg.cap = s.msg.cap
  aligned : msg.len % 4 = 0
  grows : s.msg.len ≤ msg.len
  within : msg.len ≤ s.msg.cap
  frame : ∀ i, 4 ≤ i → i < s.msg.len ∨ msg.len ≤ i → msg.nlmsghdr i = s.msg.nlmsghdr i
  nestsNew : ∀ p ∈ nests, s.msg.len ≤ p ∧ p + 4 ≤ msg.len
  blocksNew : ∀ b ∈ blocks, s.msg.len ≤ b.1 ∧ b.1 + b.2 ≤ msg.len
  padsNew : ∀ q ∈ pads, s.msg.len ≤ q.1 ∧ q.2 ≤ msg.len
  padsZero : ∀ q ∈ pads, ∀ i, q.1 ≤ i → i < q.2 → msg.nlmsghdr i = 0
  padsOffNests : ∀ q ∈ pads, ∀ p ∈ nests, q.2 ≤ p ∨ p + 4 ≤ q.1
  padsOffBlocks : ∀ q ∈ pads, ∀ b ∈ blocks, q.2 ≤ b.1 ∨ b.1 + b.2 ≤ q.1

/-- A call that moves the length keeps the invariant. -/
theorem Inv.grow (inv : s.Inv) (msg : Nlmsg) (nests : List ℕ) (blocks pads : List (ℕ × ℕ))
    (g : Growth s msg nests blocks pads) :
    Session.Inv ⟨msg, nests ++ s.nests, blocks ++ s.blocks, pads ++ s.pads⟩ := by
  have header : 16 ≤ s.msg.len := inv.valid.header
  have grows := g.grows
  refine ⟨⟨g.aligned, ?_, ?_, ?_⟩, ?_, ?_, ?_, ?_, ?_, ?_, ?_⟩
  · exact header.trans grows
  · exact g.cap ▸ g.within
  · exact g.cap ▸ inv.valid.word
  · -- What lies behind the new length was already zero behind the old one.
    intro i behind inside
    dsimp only at behind inside ⊢
    rw [g.cap] at inside
    rw [g.frame i (by omega) (.inr behind)]
    exact inv.zeroTail i (by omega) inside
  · intro p hp
    rcases List.mem_append.mp hp with new | old
    · have := g.nestsNew p new
      exact ⟨header.trans this.1, this.2⟩
    · have := inv.nestsInside p old
      exact ⟨this.1, this.2.trans grows⟩
  · intro b hb
    rcases List.mem_append.mp hb with new | old
    · have := g.blocksNew b new
      exact ⟨header.trans this.1, this.2⟩
    · have := inv.blocksInside b old
      exact ⟨this.1, this.2.trans grows⟩
  · intro q hq
    rcases List.mem_append.mp hq with new | old
    · have := g.padsNew q new
      exact ⟨header.trans this.1, this.2⟩
    · have := inv.padsInside q old
      exact ⟨this.1, this.2.trans grows⟩
  · intro q hq i start stop
    rcases List.mem_append.mp hq with new | old
    · exact g.padsZero q new i start stop
    · have inside := inv.padsInside q old
      rw [nlmsgHdrlen] at inside
      dsimp only
      rw [g.frame i (by omega) (.inl (by omega))]
      exact inv.padsZero q old i start stop
  · intro q hq p hp
    -- Old padding ends where new nests begin, and the other way round.
    rcases List.mem_append.mp hq with newPad | oldPad <;>
      rcases List.mem_append.mp hp with newNest | oldNest
    · exact g.padsOffNests q newPad p newNest
    · exact .inr ((inv.nestsInside p oldNest).2.trans (g.padsNew q newPad).1)
    · exact .inl ((inv.padsInside q oldPad).2.trans (g.nestsNew p newNest).1)
    · exact inv.padsOffNests q oldPad p oldNest
  · intro q hq b hb
    rcases List.mem_append.mp hq with newPad | oldPad <;>
      rcases List.mem_append.mp hb with newBlock | oldBlock
    · exact g.padsOffBlocks q newPad b newBlock
    · exact .inr ((inv.blocksInside b oldBlock).2.trans (g.padsNew q newPad).1)
    · exact .inl ((inv.padsInside q oldPad).2.trans (g.blocksNew b newBlock).1)
    · exact inv.padsOffBlocks q oldPad b oldBlock

/-! ### The calls, one by one -/

/-- A put either changes nothing or appends and keeps the invariant. -/
theorem Inv.put (inv : s.Inv) (attr : ℤ) (data : List UInt8) (small : data.length ≤ 2 ^ 31) :
    s.put (nlaPut s.msg attr data) data.length = (false, s) ∨
      ((s.put (nlaPut s.msg attr data) data.length).1 = true ∧
        (s.put (nlaPut s.msg attr data) data.length).2.Inv) := by
  rcases nlaPut_spec inv.valid attr data small with ⟨-, failed⟩ | ⟨msg', done, spec⟩
  · left
    rw [failed]
    exact if_neg (show ¬ -enomem = 0 by decide)
  · right
    rw [done, Session.put, if_pos rfl, inv.valid.tail]
    refine ⟨rfl, inv.grow msg' [] [] [_] ?_⟩
    have aligned := inv.valid.aligned
    have grows := spec.grows
    have room := spec.room
    have lower := le_alignUp (4 + data.length)
    have rounded := alignUp_mod (4 + data.length)
    refine ⟨spec.cap, by omega, by omega, by omega, ?_, by simp, by simp, ?_, ?_, by simp, by simp⟩
    · intro i behind apart
      exact spec.frame i behind (by omega)
    · intro q hq
      rw [List.mem_singleton] at hq
      subst hq
      dsimp only
      omega
    · -- The padding was part of the zero tail and the put did not touch it.
      intro q hq i start stop
      rw [List.mem_singleton] at hq
      subst hq
      dsimp only at start stop
      rw [spec.frame i (by have := inv.valid.header; omega) (.inr start)]
      exact inv.zeroTail i (by omega) (by omega)

theorem Inv.reserve (inv : s.Inv) {len : ℕ} (small : len < 2 ^ 31) :
    s.perform (.reserve len) = (false, s) ∨
      ((s.perform (.reserve len)).1 = true ∧ (s.perform (.reserve len)).2.Inv) := by
  rcases nlmsgReserve_spec inv.valid len small with ⟨-, failed⟩ | ⟨msg', done, spec⟩
  · left
    rw [perform, failed]
  · right
    rw [perform, done]
    refine ⟨rfl, inv.grow msg' [] [_] [_] ?_⟩
    have aligned := inv.valid.aligned
    have grows := spec.grows
    have room := spec.room
    have lower := le_alignUp len
    have rounded := alignUp_mod len
    refine ⟨spec.cap, by omega, by omega, by omega, ?_, by simp, ?_, ?_, ?_, by simp, ?_⟩
    · intro i behind apart
      exact spec.frame i behind (by omega)
    · simp only [List.mem_singleton, forall_eq]
      omega
    · simp only [List.mem_singleton, forall_eq]
      omega
    · simp only [List.mem_singleton, forall_eq]
      exact spec.padding
    · simp only [List.mem_singleton, forall_eq]
      omega

theorem Inv.beginNested (inv : s.Inv) (attr : ℤ) :
    s.perform (.beginNested attr) = (false, s) ∨
      ((s.perform (.beginNested attr)).1 = true ∧ (s.perform (.beginNested attr)).2.Inv) := by
  rcases nlaBeginNested_spec inv.valid attr with ⟨-, failed⟩ | ⟨msg', done, spec⟩
  · left
    rw [perform, failed]
  · right
    rw [perform, done]
    refine ⟨rfl, inv.grow msg' [_] [] [] ?_⟩
    have aligned := inv.valid.aligned
    have grows : msg'.len = s.msg.len + 4 := spec.grows
    have room : s.msg.len + 4 ≤ s.msg.cap := spec.room
    refine ⟨spec.cap, by omega, by omega, by omega, ?_, ?_, by simp, by simp, by simp, by simp,
      by simp⟩
    · intro i behind apart
      exact spec.frame i behind (by rw [List.length_nil]; omega)
    · simp only [List.mem_singleton, forall_eq]
      omega

theorem Inv.endNested (inv : s.Inv) {attr : ℕ} (opened : attr ∈ s.nests) :
    (s.perform (.endNested attr)).2.Inv := by
  have inside := inv.nestsInside attr opened
  rw [nlmsgHdrlen] at inside
  have spec := nlaEndNested_spec inv.valid inside.1 (by omega)
  refine inv.patch attr (attr + 2) spec.cap (by omega) (by omega) ?_ spec.frame
  intro q hq
  have := inv.padsOffNests q hq attr opened
  omega

theorem Inv.store (inv : s.Inv) {off : ℕ} {bytes : List UInt8}
    (allowed : s.Allows (.store off bytes)) : (s.perform (.store off bytes)).2.Inv := by
  have header : 16 ≤ s.msg.len := inv.valid.header
  have frame (i : ℕ) (apart : i < off ∨ off + bytes.length ≤ i) :
      s.msg.nlmsghdr.write off bytes i = s.msg.nlmsghdr i := Memory.write_apply_outside apart
  rcases allowed with ⟨b, hb, start, stop⟩ | ⟨start, stop⟩
  · -- Into a reserved block, which is apart from all padding.
    have inside := inv.blocksInside b hb
    rw [nlmsgHdrlen] at inside
    refine inv.patch off (off + bytes.length) rfl (by omega) (by omega) ?_ frame
    intro q hq
    have := inv.padsOffBlocks q hq b hb
    omega
  · -- Into the header, in front of all padding.
    rw [nlmsgHdrlen] at stop
    refine inv.patch off (off + bytes.length) rfl start (by omega) ?_ frame
    intro q hq
    have := inv.padsInside q hq
    rw [nlmsgHdrlen] at this
    omega

theorem cString_length_le (str : List UInt8) : (cString str).length ≤ str.length + 1 := by
  rw [cString, List.length_append]
  have := (List.takeWhile_prefix (· ≠ 0) (l := str)).length_le
  simpa using this

/-- **The step lemma.** An allowed call fails without any effect, or succeeds and
keeps the invariant. -/
theorem Inv.perform (inv : s.Inv) {call : BuildCall} (allowed : s.Allows call) :
    s.perform call = (false, s) ∨ ((s.perform call).1 = true ∧ (s.perform call).2.Inv) := by
  cases call with
  | reserve len => exact inv.reserve allowed
  | putBuffer attr data => exact inv.put attr data (Nat.le_of_lt allowed)
  | putString attr str =>
    have short : str.length < 2 ^ 31 := allowed
    exact inv.put attr (cString str) (by have := cString_length_le str; omega)
  | putU32 attr value =>
    have := inv.put attr (leBytes 4 (toUInt32 value)) (by simp)
    rwa [leBytes_length] at this
  | putU16 attr value =>
    have := inv.put attr (leBytes 2 value) (by simp)
    rwa [leBytes_length] at this
  | putAttr attr => exact inv.put attr [] (by simp)
  | beginNested attr => exact inv.beginNested attr
  | endNested attr => exact .inr ⟨rfl, inv.endNested allowed⟩
  | store off bytes => exact .inr ⟨rfl, inv.store allowed⟩

/-- A freshly allocated message satisfies the invariant. -/
theorem inv_of_init {size : ℕ} (small : size < 2 ^ 31) (start : (system size).init s) : s.Inv := by
  obtain ⟨shell, block, alloc, nests, blocks, pads⟩ := start
  have len := nlmsgAlloc_len alloc
  refine ⟨nlmsgAlloc_valid small alloc, ?_, ?_, ?_, ?_, ?_, ?_, ?_⟩
  · intro i behind inside
    exact nlmsgAlloc_zero alloc (by rw [len, nlmsgHdrlen] at behind; omega) inside
  all_goals simp [nests, blocks, pads]

theorem inv_of_reachable {size : ℕ} (small : size < 2 ^ 31) (reach : (system size).Reachable s) :
    s.Inv := by
  refine reach.invariant (fun _ start => inv_of_init small start) ?_
  rintro s call s' ⟨allowed, rfl⟩ inv
  rcases inv.perform allowed with failed | ⟨-, kept⟩
  · rw [failed]
    exact inv
  · exact kept

/-- **Sessions are safe.** Whatever calls were made, the length is aligned, covers
the header and stays within the capacity; the bytes behind it and all alignment
padding in front of it are zero; `nlmsg_reserve` and `nla_put` start at the same
offset; and the next call, if it fails, changes no byte. -/
theorem session_safe {size : ℕ} (small : size < 2 ^ 31) (reach : (system size).Reachable s) :
    (s.msg.len % 4 = 0 ∧ nlmsgHdrlen ≤ s.msg.len ∧ s.msg.len ≤ s.msg.cap) ∧
      (∀ i, s.msg.len ≤ i → i < s.msg.cap → s.msg.nlmsghdr i = 0) ∧
      (∀ q ∈ s.pads, ∀ i, q.1 ≤ i → i < q.2 → s.msg.nlmsghdr i = 0) ∧
      nlmsgTail s.msg = s.msg.len ∧
      ∀ call, s.Allows call → (s.perform call).1 = false →
        (s.perform call).2.msg.nlmsghdr = s.msg.nlmsghdr ∧
          (s.perform call).2.msg.len = s.msg.len := by
  have inv := inv_of_reachable small reach
  refine ⟨⟨inv.valid.aligned, inv.valid.header, inv.valid.within⟩, inv.zeroTail, inv.padsZero,
    inv.valid.tail, ?_⟩
  intro call allowed failed
  rcases inv.perform allowed with same | ⟨succeeded, -⟩
  · rw [same]
    exact ⟨rfl, rfl⟩
  · rw [succeeded] at failed
    cases failed

/-- A message with eight bytes of room, in a block full of stale bytes. -/
def fresh : Session where
  msg := { nlmsghdr := (Memory.fill (fun _ => 0xFF) 0 24 0).setU32 0 16, cap := 24 }
  nests := []
  blocks := []
  pads := []

/-- Putting three bytes leaves one byte of padding and fills the message, so that
the next put fails. -/
theorem session_safe_fresh_put :
    (fresh.perform (.putBuffer 5 [1, 2, 3])).2.pads = [(23, 24)] ∧
      (fresh.perform (.putBuffer 5 [1, 2, 3])).2.msg.nlmsghdr 23 = 0 ∧
      nlmsgTail (fresh.perform (.putBuffer 5 [1, 2, 3])).2.msg = 24 ∧
      ((fresh.perform (.putBuffer 5 [1, 2, 3])).2.perform (.putAttr 1)).1 = false ∧
      ((fresh.perform (.putBuffer 5 [1, 2, 3])).2.perform (.putAttr 1)).2.msg.len = 24 := by
  have start : (system 8).init fresh := ⟨true, some fun _ => 0xFF, rfl, rfl, rfl, rfl⟩
  have reach : (system 8).Reachable (fresh.perform (.putBuffer 5 [1, 2, 3])).2 :=
    (System.Reachable.start start).extend (a := .putBuffer 5 [1, 2, 3])
      ⟨show 3 < 2 ^ 31 by decide, rfl⟩
  have pads : (fresh.perform (.putBuffer 5 [1, 2, 3])).2.pads = [(23, 24)] := by decide
  have len : (fresh.perform (.putBuffer 5 [1, 2, 3])).2.msg.len = 24 := by decide
  have failed : ((fresh.perform (.putBuffer 5 [1, 2, 3])).2.perform (.putAttr 1)).1 = false := by
    decide
  obtain ⟨-, -, zero, tail, unchanged⟩ := session_safe (by decide) reach
  exact ⟨pads, zero (23, 24) (by rw [pads]; simp) 23 (by decide) (by decide), tail.trans len,
    failed, (unchanged (.putAttr 1) trivial failed).2.trans len⟩

end Session

end LinuxProgram.Netlink
