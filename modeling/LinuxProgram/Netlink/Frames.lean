import LinuxProgram.Netlink.Macros

/-!
# Messages in a datagram

A well-formed message announces its own length and is followed by padding up to
the next multiple of four. A datagram is a concatenation of such frames.

`forEach_frames` says what the message loop does on a buffer that holds the
first `k` bytes of a datagram, the rest having been cut off by a short receive:
it runs its body on exactly the messages that lie wholly within these bytes
(`fitting k`), in order. Padding may be cut without loss.
-/

namespace LinuxProgram.Netlink

open Base

/-- A well-formed netlink message: the header and payload it announces, and its
padding. -/
structure Message where
  bytes : List UInt8
  pad : List UInt8
  header_le : 16 ≤ bytes.length
  announces : leNat (bytes.take 4) = bytes.length
  padded : bytes.length + pad.length = alignUp bytes.length

namespace Message

/-- The bytes the message takes up in a datagram. -/
def frame (x : Message) : List UInt8 := x.bytes ++ x.pad

/-- The type field. -/
def type (x : Message) : ℕ := leNat ((x.bytes.drop 4).take 2)

/-- The flags field. -/
def flags (x : Message) : ℕ := leNat ((x.bytes.drop 6).take 2)

/-- The error code, for a message that is long enough to have one. -/
def error (x : Message) : ℤ := toInt32 (leNat ((x.bytes.drop 16).take 4))

theorem frame_length (x : Message) : x.frame.length = alignUp x.bytes.length := by
  rw [frame, List.length_append, x.padded]

theorem bytes_le_frame (x : Message) : x.bytes.length ≤ x.frame.length := by
  rw [frame, List.length_append]
  omega

/-- The message with the given header fields and payload, zeros elsewhere. -/
def make (type flags : ℕ) (payload : List UInt8) (word : 16 + payload.length < 2 ^ 32) :
    Message where
  bytes := leBytes 4 (16 + payload.length) ++ leBytes 2 type ++ leBytes 2 flags ++
    List.replicate 8 0 ++ payload
  pad := List.replicate (alignUp (16 + payload.length) - (16 + payload.length)) 0
  header_le := by
    simp only [List.length_append, leBytes_length, List.length_replicate]
    omega
  announces := by
    simp only [List.append_assoc]
    rw [List.take_left' (leBytes_length ..), leNat_leBytes, Nat.mod_eq_of_lt (by omega)]
    simp only [List.length_append, leBytes_length, List.length_replicate]
    omega
  padded := by
    have upper := le_alignUp (16 + payload.length)
    have size : 4 + 2 + 2 + 8 + payload.length = 16 + payload.length := by omega
    simp only [List.length_append, leBytes_length, List.length_replicate, size]
    omega

section Fields

variable {m : Memory} {p : ℕ} {x : Message}

/-- The length field needs only the first four bytes of the message. -/
theorem nlmsgLen_of_holds_take {k : ℕ} (held : m.Holds p (x.bytes.take k)) (four : 4 ≤ k) :
    nlmsgLen m p = x.bytes.length := by
  have header := x.header_le
  have field := held.read_eq (k := 0) (n := 4) (by rw [List.length_take]; omega)
  rw [nlmsgLen, Memory.u32, ← Nat.add_zero p, field, List.drop_zero, List.take_take,
    Nat.min_eq_left four]
  exact x.announces

theorem nlmsgLen_of_holds (held : m.Holds p x.bytes) : nlmsgLen m p = x.bytes.length :=
  nlmsgLen_of_holds_take (k := x.bytes.length) (by rwa [List.take_length])
    (by have := x.header_le; omega)

theorem nlmsgType_of_holds (held : m.Holds p x.bytes) : nlmsgType m p = x.type := by
  have header := x.header_le
  rw [nlmsgType, Memory.u16, held.read_eq (by omega), type]

theorem nlmsgFlags_of_holds (held : m.Holds p x.bytes) : nlmsgFlags m p = x.flags := by
  have header := x.header_le
  rw [nlmsgFlags, Memory.u16, held.read_eq (by omega), flags]

theorem nlmsgerrError_of_holds (held : m.Holds p x.bytes) (long : 20 ≤ x.bytes.length) :
    nlmsgerrError m p = x.error := by
  rw [nlmsgerrError, Memory.i32, Memory.u32, held.read_eq (by omega), error]

/-- Reading as many bytes as the header announces gives the whole message. -/
theorem read_of_holds (held : m.Holds p x.bytes) : m.read p (nlmsgLen m p) = x.bytes := by
  rw [nlmsgLen_of_holds held]
  exact held

end Fields

end Message

/-- A dump entry without payload. -/
def shortEntry : Message := .make 16 nlmFMulti [] (by decide)

/-- A dump entry with four bytes of payload. -/
def longEntry : Message := .make 16 nlmFMulti [1, 0, 0, 0] (by decide)

/-- The end mark of a dump. -/
def endMark : Message := .make nlmsgDone nlmFMulti [] (by decide)

/-- The datagram made of the given messages. -/
def frames (ms : List Message) : List UInt8 := ms.flatMap Message.frame

@[simp] theorem frames_nil : frames [] = [] := rfl

@[simp] theorem frames_cons (x : Message) (ms : List Message) :
    frames (x :: ms) = x.frame ++ frames ms := by
  simp [frames]

/-- The messages that lie wholly within the first `k` bytes of their datagram. -/
def fitting : (k : ℕ) → List Message → List Message
  | _, [] => []
  | k, x :: ms =>
    if x.bytes.length ≤ k then x :: fitting (k - x.frame.length) ms else []

theorem fitting_zero (ms : List Message) : fitting 0 ms = [] := by
  cases ms with
  | nil => rfl
  | cons x ms =>
    have header := x.header_le
    rw [fitting, if_neg (by omega)]

/-- What fits is an initial part of the datagram's messages. -/
theorem fitting_prefix (k : ℕ) (ms : List Message) : fitting k ms <+: ms := by
  induction ms generalizing k with
  | nil => exact List.prefix_rfl
  | cons x ms ih =>
    rw [fitting]
    split_ifs with fits
    · exact (List.prefix_cons_inj x).mpr (ih _)
    · exact List.nil_prefix

/-- The whole datagram fits in its own length. -/
theorem fitting_frames {k : ℕ} {ms : List Message} (enough : (frames ms).length ≤ k) :
    fitting k ms = ms := by
  induction ms generalizing k with
  | nil => rfl
  | cons x ms ih =>
    rw [frames_cons, List.length_append] at enough
    have inside := x.bytes_le_frame
    rw [fitting, if_pos (by omega), ih (by omega)]

/-- The length of a datagram without the padding of its last message. -/
def unpadded : List Message → ℕ
  | [] => 0
  | [x] => x.bytes.length
  | x :: y :: ms => x.frame.length + unpadded (y :: ms)

theorem unpadded_le_frames (ms : List Message) : unpadded ms ≤ (frames ms).length := by
  induction ms with
  | nil => exact Nat.le_refl 0
  | cons x ms ih =>
    rw [frames_cons, List.length_append]
    cases ms with
    | nil => exact Nat.le_add_right_of_le x.bytes_le_frame
    | cons y ms => exact Nat.add_le_add_left ih _

theorem bytes_le_unpadded (x : Message) (ms : List Message) :
    x.bytes.length ≤ unpadded (x :: ms) := by
  cases ms with
  | nil => exact Nat.le_refl _
  | cons y ms => exact Nat.le_add_right_of_le x.bytes_le_frame

/-- Nothing is lost exactly when only the last padding is cut. -/
theorem fitting_eq_self_iff {k : ℕ} {ms : List Message} :
    fitting k ms = ms ↔ unpadded ms ≤ k := by
  induction ms generalizing k with
  | nil => simp [fitting, unpadded]
  | cons x ms ih =>
    have inside := x.bytes_le_frame
    rw [fitting]
    cases ms with
    | nil => simp [fitting, unpadded]
    | cons y ms =>
      have header := y.header_le
      have more := bytes_le_unpadded y ms
      rw [unpadded]
      split_ifs with fits
      · rw [List.cons_inj_right, ih]
        omega
      · -- Without its first message the datagram is shorter than any cut.
        simp only [false_iff]
        omega

section Walk

variable {σ ε : Type} {m : Memory}

/-- What the message loop does to the messages of a datagram, in order. -/
def overMessages (step : Message → σ → Except ε σ) (ms : List Message) (s : σ) : Except ε σ :=
  ms.foldlM (fun s x => step x s) s

@[simp] theorem overMessages_nil (step : Message → σ → Except ε σ) (s : σ) :
    overMessages step [] s = .ok s := rfl

@[simp] theorem overMessages_cons (step : Message → σ → Except ε σ) (x : Message)
    (ms : List Message) (s : σ) :
    overMessages step (x :: ms) s = step x s >>= overMessages step ms := rfl

theorem overMessages_append (step : Message → σ → Except ε σ) (xs ys : List Message) (s : σ) :
    overMessages step (xs ++ ys) s = overMessages step xs s >>= overMessages step ys := by
  rw [overMessages, List.foldlM_append]
  rfl

/-- The loop test on the first message of what is left of a datagram. -/
theorem nlmsgCursor_ok_frames {p k : ℕ} {x : Message} {ms : List Message} (range : k < 2 ^ 31)
    (held : m.Holds p ((frames (x :: ms)).take k)) :
    (nlmsgCursor m).ok (p, k) = true ↔ x.bytes.length ≤ k := by
  have header := x.header_le
  rcases lt_or_ge k 16 with short | long
  · -- Not even a header is left, and the bytes there need not be a length.
    rw [nlmsgCursor_short (by omega)]
    simp only [Bool.false_eq_true, false_iff]
    omega
  · -- The header is complete, so the announced length is the true one.
    have start : m.Holds p (x.bytes.take (min k x.bytes.length)) := by
      have := held.take (min k x.bytes.length)
      rwa [List.take_take, frames_cons, Message.frame, List.append_assoc,
        List.take_append_of_le_length (by omega),
        Nat.min_eq_left (by omega : min k x.bytes.length ≤ k)] at this
    rw [nlmsgCursor_ok (Message.nlmsgLen_of_holds_take start (by omega)) (by omega)]
    omega

/-- **The message loop on a cut datagram.** With the first `k` bytes of a
datagram in the buffer, the loop body runs on the messages that fit, in order,
and the loop stops after the last of them. -/
theorem forEach_frames {body : ℕ × ℤ → σ → Except ε σ} {step : Message → σ → Except ε σ}
    (ms : List Message)
    (agree : ∀ x ∈ ms, ∀ q len s, m.Holds q x.bytes → body (q, len) s = step x s)
    {p k : ℕ} (range : k < 2 ^ 31) (within : k ≤ (frames ms).length)
    (held : m.Holds p ((frames ms).take k)) (s : σ) :
    (nlmsgCursor m).forEach body (p, k) s =
      (fun t => ((p + (frames (fitting k ms)).length,
        (k : ℤ) - (frames (fitting k ms)).length), t)) <$> overMessages step (fitting k ms) s := by
  -- Induction on the messages of the datagram, `k` being what is left of the cut.
  induction ms generalizing p k s with
  | nil =>
    obtain rfl : k = 0 := by simpa using within
    rw [Cursor.forEach_stop _ _ (nlmsgCursor_short (by decide))]
    simp only [fitting, frames_nil, List.length_nil, overMessages_nil, Nat.add_zero,
      Nat.cast_zero, sub_zero]
    rfl
  | cons x ms ih =>
    have header := x.header_le
    have inside := x.bytes_le_frame
    have size := x.frame_length
    have test := nlmsgCursor_ok_frames range held
    rw [frames_cons, List.length_append] at within
    rw [frames_cons, List.take_append] at held
    by_cases fits : x.bytes.length ≤ k
    · have whole : m.Holds p x.bytes := by
        have := held.take x.bytes.length
        rwa [List.take_append_of_le_length (by rw [List.length_take]; omega), List.take_take,
          Nat.min_eq_left fits, Message.frame, List.take_left] at this
      have announced := Message.nlmsgLen_of_holds whole
      rw [Cursor.forEach_step _ _ (test.mpr fits), agree x (List.mem_cons_self ..) _ _ _ whole,
        nlmsgCursor_next announced (by omega) (by omega), ← size, fitting, if_pos fits,
        overMessages_cons]
      cases step x s with
      | error e => rfl
      | ok t =>
        change (nlmsgCursor m).forEach body (p + x.frame.length, (k : ℤ) - x.frame.length) t =
          _ <$> overMessages step (fitting (k - x.frame.length) ms) t
        rcases le_or_gt x.frame.length k with enough | cut
        · -- The next message starts inside the received bytes.
          have rest : m.Holds (p + x.frame.length)
              ((frames ms).take (k - x.frame.length)) := by
            rw [List.take_of_length_le enough] at held
            exact (Memory.holds_append.mp held).2
          rw [show ((k : ℤ) - x.frame.length) = ((k - x.frame.length : ℕ) : ℤ) by omega,
            ih (fun y hy => agree y (List.mem_cons_of_mem _ hy)) (by omega) (by omega) rest]
          congr 1
          funext u
          rw [frames_cons, List.length_append]
          simp only [Prod.mk.injEq, and_true]
          constructor <;> omega
        · -- Only padding was cut; nothing follows.
          rw [Cursor.forEach_stop _ _ (nlmsgCursor_short (by omega)),
            show k - x.frame.length = 0 by omega, fitting_zero]
          simp only [frames_nil, frames_cons, List.append_nil, overMessages_nil]
          rfl
    · -- The first message is cut: the loop test fails on it.
      have stop : (nlmsgCursor m).ok (p, k) = false := by
        rw [Bool.eq_false_iff]
        exact fun h => fits (test.mp h)
      rw [Cursor.forEach_stop _ _ stop, fitting, if_neg fits]
      simp only [frames_nil, List.length_nil, overMessages_nil, Nat.add_zero, Nat.cast_zero,
        sub_zero]
      rfl

end Walk

end LinuxProgram.Netlink
