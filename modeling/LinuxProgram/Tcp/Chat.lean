import LinuxProgram.Base.Systems
import LinuxProgram.Base.Text
import LinuxProgram.Base.Words
import Mathlib.Data.List.Infix

/-!
# The chat over one connection

`network/tcp` has a server that forks a child for every connection, and a client. The
two talk over a byte stream in turns: the child reads words from its terminal, sends
them and waits for an answer (`Chat`); the client waits for a message, then reads words
and sends them (`main`).

Both keep the result of `send` and `recv` in a `socklen_t`, which is unsigned: a failed
call counts as one that has moved bytes. The kernel moves any part of a message, may
fail at any time and may lose the connection with all bytes under way.

## Main definitions

* `readWords` — from a line of the terminal to what is sent
* `Server`, `Client` — the two programs, call by call
* `connection` — both programs and the stream between them

## Main results

* `client_shows` — the server sends once at most, and the client shows the beginning of
  what was typed there, without a gap; every array that it prints is terminated
* `server_shows` — the server shows at most one text; its array is without a terminator
  just if it is full, and then the client has shown several messages
* `never_reported` — the reports that no run makes
-/

namespace LinuxProgram.Tcp

open Base

/-- `BUFLEN`. -/
def buflen : ℕ := 100

/-- The array after `bzero` and a call that has stored some bytes at its beginning. -/
def filled (data : List UInt8) : List UInt8 := data ++ List.replicate (buflen - data.length) 0

/-- What `%s` prints of an array, if it has a terminator. -/
def shown (buf : List UInt8) : Option (List UInt8) := if 0 ∈ buf then some (text buf) else none

/-- What `fgets` can read: a newline ends the line. At the end of the input it reads nothing. -/
def IsLine (line : List UInt8) : Prop := line.length < buflen ∧ 0x0A ∉ line.dropLast

/-- What the programs make of a line. -/
inductive Words
  | quit
  /-- A line without words; the next one is read. -/
  | again
  | message (bytes : List UInt8)
  deriving DecidableEq, Repr

/-- From `fgets` to the arguments of `send`, the same in both programs. -/
def readWords (line : List UInt8) : Words :=
  let buf := filled line
  if strncasecmp buf (ascii "quit") 4 = 0 then .quit
  else if strncmp buf (ascii "\n") 1 = 0 then .again
  else if 0x0A ∈ text buf then .message (buf.take (strlen buf - 1))
  else .message (buf.take (strlen buf))

/-- The lines of the programs' output, without the prompts. -/
inductive Report
  | sendSuccessful
  | sendFailed
  | receiveMassage (shown : Option (List UInt8))
  | receiveFailed
  | serverStop
  | clientStop
  /-- `"first recv, return %d"` and its like. -/
  | firstRecv (len : ℕ)
  | firstSend (len : ℕ)
  | secondRecv (len : ℕ)
  | thirdRecv (len : ℕ)
  deriving DecidableEq, Repr

/-- The text of a received message. -/
@[simp] def Report.massage : Report → Option (Option (List UInt8))
  | .receiveMassage t => some t
  | _ => none

/-- The texts of received messages among the reports. -/
def massages (out : List Report) : List (Option (List UInt8)) := out.filterMap Report.massage

@[simp] theorem massages_append (out more : List Report) :
    massages (out ++ more) = massages out ++ massages more :=
  List.filterMap_append

@[simp] theorem massages_singleton (r : Report) : massages [r] = r.massage.toList := by
  cases r <;> rfl

/-! ### The programs -/

/-- Where a server's child is in `Chat`. -/
inductive ServerAt
  | typing
  | sending (msg : List UInt8)
  | receiving
  /-- Before the `recv` on the socket that has been closed. -/
  | lingering
  /-- Before the `recv` after `"client stop!!!!!!!!!!!!"`. -/
  | draining
  | ended
  deriving DecidableEq, Repr

/-- The child of the server: where it is and what it has printed. -/
structure Server where
  phase : ServerAt
  out : List Report

namespace Server

/-- `fgets` has returned. -/
def typed (s : Server) (line : List UInt8) : Server :=
  match readWords line with
  | .quit => ⟨.ended, s.out ++ [.serverStop]⟩
  | .again => s
  | .message msg => ⟨.sending msg, s.out⟩

/-- `send` has returned. -/
def sent (s : Server) (ret : ℤ) : Server :=
  let len := toUInt32 ret
  if 0 < len then ⟨.receiving, s.out ++ [.sendSuccessful]⟩
  else ⟨.ended, s.out ++ [.sendFailed]⟩

/-- `recv` has returned. The comparison with `-1` is unsigned. -/
def received (s : Server) (ret : ℤ) (data : List UInt8) : Server :=
  let len := toUInt32 ret
  if 0 < len then ⟨.lingering, s.out ++ [.receiveMassage (shown (filled data))]⟩
  else if len < toUInt32 (-1) then ⟨.ended, s.out ++ [.receiveFailed]⟩
  else if len = 0 then ⟨.draining, s.out ++ [.clientStop]⟩
  else ⟨.typing, s.out⟩

/-- The last `recv` before the child exits has returned. -/
def finish (s : Server) (ret : ℤ) : Server :=
  match s.phase with
  | .lingering => ⟨.ended, s.out ++ [.firstRecv (toUInt32 ret)]⟩
  | .draining => ⟨.ended, s.out ++ [.secondRecv (toUInt32 ret)]⟩
  | _ => s

/-- The child's socket is closed, by `close` or by `exit`. -/
def Closed (s : Server) : Prop := s.phase = .lingering ∨ s.phase = .ended

instance (s : Server) : Decidable s.Closed := inferInstanceAs (Decidable (_ ∨ _))

end Server

/-- The calls that the client makes when the server has stopped. -/
inductive Probe
  | firstRecv | firstSend | secondRecv | thirdRecv
  deriving DecidableEq, Repr

/-- Where the client is in its loop. -/
inductive ClientAt
  | receiving
  | probing (p : Probe)
  | typing
  | sending (msg : List UInt8)
  | ended
  deriving DecidableEq, Repr

/-- The client: where it is and what it has printed. -/
structure Client where
  phase : ClientAt
  out : List Report

namespace Client

/-- `recv` has returned. Whatever the outcome, the client goes on to send. -/
def received (c : Client) (ret : ℤ) (data : List UInt8) : Client :=
  let len := toUInt32 ret
  if 0 < len then ⟨.typing, c.out ++ [.receiveMassage (shown (filled data))]⟩
  else if len < 0 then ⟨.typing, c.out ++ [.receiveFailed]⟩
  else if len = 0 then ⟨.probing .firstRecv, c.out ++ [.serverStop]⟩
  else ⟨.typing, c.out⟩

/-- A call after `"server stop"` has returned. -/
def probed (c : Client) (p : Probe) (ret : ℤ) : Client :=
  let len := toUInt32 ret
  match p with
  | .firstRecv => ⟨.probing .firstSend, c.out ++ [.firstRecv len]⟩
  | .firstSend => ⟨.probing .secondRecv, c.out ++ [.firstSend len]⟩
  | .secondRecv => ⟨.probing .thirdRecv, c.out ++ [.secondRecv len]⟩
  | .thirdRecv => ⟨.typing, c.out ++ [.thirdRecv len]⟩

/-- `fgets` has returned. -/
def typed (c : Client) (line : List UInt8) : Client :=
  match readWords line with
  | .quit => ⟨.ended, c.out ++ [.clientStop]⟩
  | .again => c
  | .message msg => ⟨.sending msg, c.out⟩

/-- `send` has returned. -/
def sent (c : Client) (ret : ℤ) : Client :=
  let len := toUInt32 ret
  if 0 < len then ⟨.receiving, c.out ++ [.sendSuccessful]⟩
  else ⟨.ended, c.out ++ [.sendFailed]⟩

end Client

/-! ### The connection -/

/-- The two programs and the bytes under way. -/
structure Connection where
  server : Server
  client : Client
  toServer : List UInt8
  toClient : List UInt8
  lost : Bool
  /-- What the kernel has taken from the server and from the client so far. -/
  serverSent : List UInt8
  clientSent : List UInt8

/-- What `send` may return. -/
def SendResult (msg : List UInt8) (ret : ℤ) : Prop :=
  ret = -1 ∨ ∃ n : ℕ, ret = n ∧ n ≤ msg.length ∧ (n = 0 → msg = [])

/-- What `recv` may return when `wire` is under way; `finished` if no more bytes will come. -/
def RecvResult (wire : List UInt8) (finished : Prop) (ret : ℤ) : Prop :=
  ret = -1 ∨ (ret = 0 ∧ wire = [] ∧ finished) ∨
    ∃ n : ℕ, ret = n ∧ 0 < n ∧ n ≤ buflen ∧ n ≤ wire.length

namespace Connection

/-- The bytes under way after a `send`: a lost connection carries nothing. -/
def carry (m : Connection) (wire msg : List UInt8) (ret : ℤ) : List UInt8 :=
  if m.lost then wire else wire ++ msg.take ret.toNat

/-- The client sends. -/
def clientSends (m : Connection) (client : Client) (msg : List UInt8) (ret : ℤ) : Connection :=
  { m with
    client
    toServer := m.carry m.toServer msg ret
    clientSent := m.clientSent ++ msg.take ret.toNat }

end Connection

/-- A call that returns, or the loss of the connection. -/
inductive Event
  | serverTypes (line : List UInt8)
  | serverSends (ret : ℤ)
  | serverKilled
  | serverReceives (ret : ℤ)
  | serverFinishes (ret : ℤ)
  | clientTypes (line : List UInt8)
  | clientSends (ret : ℤ)
  | clientReceives (ret : ℤ)
  | clientProbes (ret : ℤ)
  | lose
  deriving DecidableEq, Repr

/-- A return from the `send` of the server. -/
def Event.isServerSend : Event → Bool
  | .serverSends _ => true
  | _ => false

/-- One call of either program returns. -/
inductive Step (m : Connection) : Event → Connection → Prop
  | serverTypes {line : List UInt8} (waits : m.server.phase = .typing) (read : IsLine line) :
      Step m (.serverTypes line) { m with server := m.server.typed line }
  | serverSends {msg : List UInt8} {ret : ℤ} (waits : m.server.phase = .sending msg)
      (result : SendResult msg ret) :
      Step m (.serverSends ret)
        { m with
          server := m.server.sent ret
          toClient := m.carry m.toClient msg ret
          serverSent := m.serverSent ++ msg.take ret.toNat }
  -- Only the client has a handler for `SIGPIPE`.
  | serverKilled {msg : List UInt8} (waits : m.server.phase = .sending msg)
      (broken : m.lost ∨ m.client.phase = .ended) :
      Step m .serverKilled { m with server := ⟨.ended, m.server.out⟩ }
  | serverReceives {ret : ℤ} (waits : m.server.phase = .receiving)
      (result : RecvResult m.toServer (m.lost ∨ m.client.phase = .ended) ret) :
      Step m (.serverReceives ret)
        { m with
          server := m.server.received ret (m.toServer.take ret.toNat)
          toServer := m.toServer.drop ret.toNat }
  -- The socket is closed: `recv` fails.
  | serverLingers (waits : m.server.phase = .lingering) :
      Step m (.serverFinishes (-1)) { m with server := m.server.finish (-1) }
  | serverDrains {ret : ℤ} (waits : m.server.phase = .draining)
      (result : RecvResult m.toServer (m.lost ∨ m.client.phase = .ended) ret) :
      Step m (.serverFinishes ret)
        { m with server := m.server.finish ret, toServer := m.toServer.drop ret.toNat }
  | clientReceives {ret : ℤ} (waits : m.client.phase = .receiving)
      (result : RecvResult m.toClient (m.lost ∨ m.server.Closed) ret) :
      Step m (.clientReceives ret)
        { m with
          client := m.client.received ret (m.toClient.take ret.toNat)
          toClient := m.toClient.drop ret.toNat }
  | clientProbes {p : Probe} {ret : ℤ} (waits : m.client.phase = .probing p)
      (recv : p ≠ .firstSend) (result : RecvResult m.toClient (m.lost ∨ m.server.Closed) ret) :
      Step m (.clientProbes ret)
        { m with client := m.client.probed p ret, toClient := m.toClient.drop ret.toNat }
  | clientProbesSend {ret : ℤ} (waits : m.client.phase = .probing .firstSend)
      (result : SendResult (ascii "12345") ret) :
      Step m (.clientProbes ret)
        (m.clientSends (m.client.probed .firstSend ret) (ascii "12345") ret)
  | clientTypes {line : List UInt8} (waits : m.client.phase = .typing) (read : IsLine line) :
      Step m (.clientTypes line) { m with client := m.client.typed line }
  | clientSends {msg : List UInt8} {ret : ℤ} (waits : m.client.phase = .sending msg)
      (result : SendResult msg ret) :
      Step m (.clientSends ret) (m.clientSends (m.client.sent ret) msg ret)
  | lose : Step m .lose { m with toServer := [], toClient := [], lost := true }

/-- The connection when it has been established. -/
def Connection.start : Connection where
  server := ⟨.typing, []⟩
  client := ⟨.receiving, []⟩
  toServer := []
  toClient := []
  lost := false
  serverSent := []
  clientSent := []

/-- The chat as a transition system. -/
def connection : System Connection Event where
  init m := m = .start
  step := Step

/-! ### Words and arrays -/

/-- What the programs send: the words of some line. -/
def IsMessage (msg : List UInt8) : Prop := ∃ line, IsLine line ∧ readWords line = .message msg

section Words

variable {line msg data : List UInt8}

theorem text_filled (line : List UInt8) : text (filled line) = text line := by
  have zeros (n : ℕ) : (List.replicate n (0 : UInt8)).takeWhile (· ≠ 0) = [] := by
    cases n <;> rfl
  rw [text, filled, List.takeWhile_append, zeros, List.append_nil]
  split_ifs with whole
  · exact ((List.takeWhile_prefix _).eq_of_length whole).symm
  · rfl

theorem take_filled_prefix {n : ℕ} (inside : n ≤ strlen (filled line)) :
    (filled line).take n <+: text line := by
  obtain ⟨rest, whole⟩ : text (filled line) <+: filled line := List.takeWhile_prefix _
  rw [← whole, List.take_append_of_le_length inside, text_filled]
  exact List.take_prefix n _

theorem IsMessage.prefix_text (message : IsMessage msg) :
    ∃ line, IsLine line ∧ msg <+: text line := by
  obtain ⟨line, read, words⟩ := message
  refine ⟨line, read, ?_⟩
  unfold readWords at words
  dsimp only at words
  split_ifs at words
  · cases words
    exact take_filled_prefix (Nat.sub_le _ _)
  · cases words
    exact take_filled_prefix (Nat.le_refl _)

theorem IsMessage.plain (message : IsMessage msg) : 0 ∉ msg := by
  obtain ⟨line, -, front⟩ := message.prefix_text
  exact fun mem => text_ne_zero 0 (front.subset mem) rfl

theorem IsMessage.short (message : IsMessage msg) : msg.length < buflen := by
  obtain ⟨line, read, front⟩ := message.prefix_text
  calc msg.length ≤ (text line).length := front.length_le
    _ ≤ line.length := (List.takeWhile_prefix _).length_le
    _ < buflen := read.1

/-- Received bytes are printed as they are, unless they fill the array. -/
theorem shown_filled (plain : 0 ∉ data) (fits : data.length ≤ buflen) :
    shown (filled data) = if data.length < buflen then some data else none := by
  split_ifs with room
  · have ended : 0 ∈ filled data := by
      refine List.mem_append_right _ (List.mem_replicate.mpr ⟨?_, rfl⟩)
      omega
    rw [shown, if_pos ended, text_filled, text_of_plain plain]
  · have full : filled data = data := by
      rw [filled, Nat.sub_eq_zero_of_le (by omega), List.replicate_zero, List.append_nil]
    rw [full, shown, if_neg plain]

end Words

/-! ### What the calls do -/

section Calls

variable {s : Server} {c : Client} {line msg wire data : List UInt8} {ret : ℤ} {finished : Prop}

theorem Server.typed_cases (s : Server) (read : IsLine line) :
    s.typed line = ⟨.ended, s.out ++ [.serverStop]⟩ ∨ s.typed line = s ∨
      ∃ msg, IsMessage msg ∧ s.typed line = ⟨.sending msg, s.out⟩ := by
  unfold Server.typed
  cases words : readWords line with
  | quit => exact .inl rfl
  | again => exact .inr (.inl rfl)
  | message msg => exact .inr (.inr ⟨msg, ⟨line, read, words⟩, rfl⟩)

theorem Client.typed_cases (c : Client) (read : IsLine line) :
    c.typed line = ⟨.ended, c.out ++ [.clientStop]⟩ ∨ c.typed line = c ∨
      ∃ msg, IsMessage msg ∧ c.typed line = ⟨.sending msg, c.out⟩ := by
  unfold Client.typed
  cases words : readWords line with
  | quit => exact .inl rfl
  | again => exact .inr (.inl rfl)
  | message msg => exact .inr (.inr ⟨msg, ⟨line, read, words⟩, rfl⟩)

theorem Server.sent_cases (s : Server) (ret : ℤ) :
    s.sent ret = ⟨.receiving, s.out ++ [.sendSuccessful]⟩ ∨
      s.sent ret = ⟨.ended, s.out ++ [.sendFailed]⟩ :=
  ite_eq_or_eq ..

theorem Client.sent_cases (c : Client) (ret : ℤ) :
    c.sent ret = ⟨.receiving, c.out ++ [.sendSuccessful]⟩ ∨
      c.sent ret = ⟨.ended, c.out ++ [.sendFailed]⟩ :=
  ite_eq_or_eq ..

theorem RecvResult.toUInt32_pos (result : RecvResult wire finished ret) :
    0 < toUInt32 ret ↔ ret ≠ 0 := by
  unfold toUInt32
  obtain rfl | ⟨rfl, -, -⟩ | ⟨n, rfl, some_byte, fits, -⟩ := result
  · decide
  · decide
  · rw [buflen] at fits
    omega

theorem RecvResult.toNat_le (result : RecvResult wire finished ret) : ret.toNat ≤ buflen := by
  obtain rfl | ⟨rfl, -, -⟩ | ⟨n, rfl, -, fits, -⟩ := result
  · decide
  · decide
  · exact fits

theorem RecvResult.of_zero (result : RecvResult wire finished 0) : wire = [] ∧ finished := by
  obtain zero | ⟨-, ended⟩ | ⟨n, zero, some_byte, -⟩ := result
  · omega
  · exact ended
  · omega

/-- The end of the stream is reported as a failure, and a failure as a message. -/
theorem Server.received_cases (s : Server) (data : List UInt8)
    (result : RecvResult wire finished ret) :
    s.received ret data = ⟨.ended, s.out ++ [.receiveFailed]⟩ ∨
      s.received ret data = ⟨.lingering, s.out ++ [.receiveMassage (shown (filled data))]⟩ := by
  have moved := result.toUInt32_pos
  by_cases zero : ret = 0
  · subst zero
    exact .inl rfl
  · exact .inr (if_pos (moved.mpr zero))

theorem Client.received_cases (c : Client) (data : List UInt8)
    (result : RecvResult wire finished ret) :
    (wire = [] ∧ finished ∧
        c.received ret data = ⟨.probing .firstRecv, c.out ++ [.serverStop]⟩) ∨
      c.received ret data = ⟨.typing, c.out ++ [.receiveMassage (shown (filled data))]⟩ := by
  have moved := result.toUInt32_pos
  by_cases zero : ret = 0
  · subst zero
    exact .inl ⟨result.of_zero.1, result.of_zero.2, rfl⟩
  · exact .inr (if_pos (moved.mpr zero))

end Calls

variable {m t : Connection} {e : Event}

theorem Server.Closed.not_typing {s : Server} (closed : s.Closed) : s.phase ≠ .typing := by
  obtain phase | phase := closed <;> rw [phase] <;> nofun

theorem Server.Closed.not_sending {s : Server} (closed : s.Closed) (msg : List UInt8) :
    s.phase ≠ .sending msg := by
  obtain phase | phase := closed <;> rw [phase] <;> nofun

/-! ### From the server to the client -/

/-- What holds of the words of the server, wherever they are. -/
structure Connection.Told (m : Connection) : Prop where
  lost : m.lost → m.toClient = []
  typing : m.server.phase = .typing → m.serverSent = []
  sending : ∀ msg, m.server.phase = .sending msg → m.serverSent = [] ∧ IsMessage msg
  sent : ∃ words, IsMessage words ∧ m.serverSent <+: words
  shown : ∃ pieces : List (List UInt8), massages m.client.out = pieces.map some ∧
    pieces.flatten ++ m.toClient <+: m.serverSent
  finished : ∀ p, m.client.phase = .probing p → m.toClient = [] ∧ (m.lost ∨ m.server.Closed)

/-- Nothing is said any more on a closed socket. -/
theorem Connection.Told.close (inv : m.Told) {s : Server} (closed : s.Closed)
    (toServer : List UInt8) : { m with server := s, toServer }.Told :=
  { inv with
    typing := fun typing => absurd typing closed.not_typing
    sending := fun msg sending => absurd sending (closed.not_sending msg)
    finished := fun p probing => ⟨(inv.finished p probing).1, .inr closed⟩ }

/-- Steps of the client that show nothing. -/
theorem Connection.Told.answer (inv : m.Told) {c : Client}
    (same : massages c.out = massages m.client.out)
    (probing : ∀ p, c.phase = .probing p → ∃ q, m.client.phase = .probing q)
    (toServer clientSent : List UInt8) :
    { m with client := c, toServer, clientSent }.Told :=
  { inv with
    shown := by
      dsimp only
      rw [same]
      exact inv.shown
    finished := fun p now => by
      obtain ⟨q, before⟩ := probing p now
      exact inv.finished q before }

theorem Connection.Told.lost_of_open (inv : m.Told) {p : Probe}
    (probing : m.client.phase = .probing p) (opened : ¬ m.server.Closed) :
    m.toClient = [] ∧ m.lost := by
  obtain ⟨empty, lost | closed⟩ := inv.finished p probing
  · exact ⟨empty, lost⟩
  · exact absurd closed opened

theorem Client.massages_probed (c : Client) (p : Probe) (ret : ℤ) :
    massages (c.probed p ret).out = massages c.out := by
  cases p <;> simp [Client.probed]

/-- Bytes for the client are terminated in its array: they are words of one line. -/
theorem Connection.Told.shown_of_prefix (inv : m.Told) {data : List UInt8}
    (front : data <:+: m.serverSent) : Tcp.shown (filled data) = some data := by
  obtain ⟨words, message, sent⟩ := inv.sent
  have part : data <:+: words := front.trans sent.isInfix
  have short : data.length < buflen := part.length_le.trans_lt message.short
  rw [shown_filled (fun mem => message.plain (part.subset mem)) short.le, if_pos short]

/-- The only message of the server. -/
theorem Connection.Told.send (inv : m.Told) {msg : List UInt8}
    (waits : m.server.phase = .sending msg) (ret : ℤ) :
    { m with
      server := m.server.sent ret
      toClient := m.carry m.toClient msg ret
      serverSent := m.serverSent ++ msg.take ret.toNat }.Told := by
  obtain ⟨silent, message⟩ := inv.sending msg waits
  obtain ⟨pieces, texts, front⟩ := inv.shown
  -- Nothing has been sent, so nothing is on its way or shown.
  rw [silent, List.prefix_nil, List.append_eq_nil_iff] at front
  have opened : ¬ m.server.Closed := by simp [Server.Closed, waits]
  have next : ∀ msg, (m.server.sent ret).phase ≠ .typing ∧
      (m.server.sent ret).phase ≠ .sending msg := by
    obtain sent | sent := m.server.sent_cases ret <;> rw [sent] <;> exact fun _ => ⟨nofun, nofun⟩
  constructor
  case lost => exact fun lost => (if_pos lost).trans (inv.lost lost)
  case typing => exact fun typing => absurd typing (next []).1
  case sending => exact fun msg sending => absurd sending (next msg).2
  case sent =>
    refine ⟨msg, message, ?_⟩
    rw [silent, List.nil_append]
    exact List.take_prefix _ _
  case shown =>
    refine ⟨pieces, texts, ?_⟩
    dsimp only
    rw [silent, front.1, front.2, Connection.carry]
    split_ifs <;> simp
  case finished =>
    intro p probing
    obtain ⟨empty, lost⟩ := inv.lost_of_open probing opened
    exact ⟨(if_pos lost).trans empty, .inl lost⟩

/-- The client shows what is on the wire, or finds that nothing will come. -/
theorem Connection.Told.receive (inv : m.Told) {ret : ℤ}
    (result : RecvResult m.toClient (m.lost ∨ m.server.Closed) ret) :
    { m with
      client := m.client.received ret (m.toClient.take ret.toNat)
      toClient := m.toClient.drop ret.toNat }.Told := by
  obtain ⟨empty, finished, received⟩ | received :=
    m.client.received_cases (m.toClient.take ret.toNat) result
  · rw [received, empty, List.drop_nil]
    rw [← empty]
    exact { inv with
      shown := by
        dsimp only
        simpa using inv.shown
      finished := fun p _ => ⟨empty, finished⟩ }
  · rw [received]
    obtain ⟨pieces, texts, front⟩ := inv.shown
    -- What is shown moves from the wire to the end of what has been shown.
    have whole : (pieces ++ [m.toClient.take ret.toNat]).flatten ++ m.toClient.drop ret.toNat =
        pieces.flatten ++ m.toClient := by
      simp
    have part : m.toClient.take ret.toNat <:+: m.serverSent :=
      (((List.take_prefix _ _).isInfix).trans (List.suffix_append _ _).isInfix).trans
        front.isInfix
    exact { inv with
      lost := fun lost => by
        dsimp only
        rw [inv.lost lost, List.drop_nil]
      shown := by
        refine ⟨pieces ++ [m.toClient.take ret.toNat], ?_, whole ▸ front⟩
        rw [massages_append, texts, List.map_append, inv.shown_of_prefix part]
        rfl
      finished := nofun }

theorem Connection.Told.step (inv : m.Told) (step : Step m e t) : t.Told := by
  cases step with
  | @serverTypes line waits read =>
    obtain typed | typed | ⟨msg, message, typed⟩ := m.server.typed_cases read
    · rw [typed]
      exact inv.close (.inr rfl) m.toServer
    · rw [typed]
      exact inv
    · rw [typed]
      have opened : ¬ m.server.Closed := by simp [Server.Closed, waits]
      exact { inv with
        typing := nofun
        sending := by
          rintro _ ⟨⟩
          exact ⟨inv.typing waits, message⟩
        finished := fun p probing => (inv.lost_of_open probing opened).imp_right .inl }
  | @serverSends msg ret waits result => exact inv.send waits ret
  | serverKilled waits broken => exact inv.close (.inr rfl) m.toServer
  | @serverReceives ret waits result =>
    obtain received | received :=
      m.server.received_cases (m.toServer.take ret.toNat) result
    · rw [received]
      exact inv.close (.inr rfl) _
    · rw [received]
      exact inv.close (.inl rfl) _
  | serverLingers waits =>
    exact inv.close (.inr (by rw [Server.finish, waits])) m.toServer
  | serverDrains waits result =>
    exact inv.close (.inr (by rw [Server.finish, waits])) _
  | @clientReceives ret waits result => exact inv.receive result
  | @clientProbes p ret waits recv result =>
    have empty : m.toClient.drop ret.toNat = m.toClient := by
      rw [(inv.finished p waits).1, List.drop_nil]
    rw [empty]
    exact inv.answer (m.client.massages_probed p ret) (fun _ _ => ⟨p, waits⟩) _ _
  | @clientProbesSend ret waits result =>
    exact inv.answer (m.client.massages_probed _ ret) (fun _ _ => ⟨_, waits⟩) _ _
  | @clientTypes line waits read =>
    obtain typed | typed | ⟨msg, -, typed⟩ := m.client.typed_cases read
    · rw [typed]
      exact inv.answer (by simp) (by nofun) _ _
    · rw [typed]
      exact inv
    · rw [typed]
      exact inv.answer (by rfl) (by nofun) _ _
  | @clientSends msg ret waits result =>
    obtain sent | sent := m.client.sent_cases ret
    · rw [sent]
      exact inv.answer (by simp) (by nofun) _ _
    · rw [sent]
      exact inv.answer (by simp) (by nofun) _ _
  | lose =>
    obtain ⟨pieces, texts, front⟩ := inv.shown
    exact { inv with
      lost := fun _ => rfl
      shown := ⟨pieces, texts, (List.append_nil pieces.flatten).symm ▸
        (List.prefix_append _ _).trans front⟩
      finished := fun p _ => ⟨rfl, .inl rfl⟩ }

/-! ### From the client to the server -/

/-- The bytes that the client may send before it waits for the next message. -/
def Client.due (c : Client) : ℕ :=
  match c.phase with
  | .typing | .sending _ => buflen - 1
  | _ => 0

/-- What holds of the answers of the client, wherever they are. -/
structure Connection.Answered (m : Connection) : Prop where
  lost : m.lost → m.toServer = []
  alive : m.server.phase ≠ .draining
  sending : ∀ msg, m.client.phase = .sending msg → IsMessage msg
  plain : 0 ∉ m.clientSent
  unread : ¬ m.server.Closed → massages m.server.out = [] ∧ (¬ m.lost → m.toServer = m.clientSent)
  /-- The client sends one message for each that it has shown. -/
  turns : ¬ m.lost → ¬ m.server.Closed →
    m.clientSent.length + m.client.due ≤ (buflen - 1) * (massages m.client.out).length
  shown : massages m.server.out = [] ∨ ∃ data, data <+: m.clientSent ∧ data.length ≤ buflen ∧
    massages m.server.out = [if data.length < buflen then some data else none] ∧
    (data.length = buflen → 2 ≤ (massages m.client.out).length)

/-- Steps of the server that show nothing. -/
theorem Connection.Answered.server (inv : m.Answered) {s : Server}
    (same : massages s.out = massages m.server.out) (alive : s.phase ≠ .draining)
    (opened : ¬ s.Closed → ¬ m.server.Closed) (toClient serverSent : List UInt8) :
    { m with server := s, toClient, serverSent }.Answered :=
  { inv with
    alive
    unread := fun now => by
      dsimp only
      rw [same]
      exact inv.unread (opened now)
    turns := fun lost now => inv.turns lost (opened now)
    shown := by
      dsimp only
      rw [same]
      exact inv.shown }

/-- Steps of the client, whether it sends or not. -/
theorem Connection.Answered.client (inv : m.Answered) {c : Client}
    {toClient toServer more : List UInt8} (sending : ∀ msg, c.phase = .sending msg → IsMessage msg)
    (plain : 0 ∉ more) (carried : toServer = if m.lost then m.toServer else m.toServer ++ more)
    (grows : (massages m.client.out).length ≤ (massages c.out).length)
    (turns : ¬ m.lost → ¬ m.server.Closed →
      (m.clientSent ++ more).length + c.due ≤ (buflen - 1) * (massages c.out).length) :
    { m with client := c, toClient, toServer, clientSent := m.clientSent ++ more }.Answered where
  lost lost := by
    dsimp only at lost ⊢
    rw [carried, if_pos lost, inv.lost lost]
  alive := inv.alive
  sending := sending
  plain := by simp [inv.plain, plain]
  unread opened := by
    refine ⟨(inv.unread opened).1, fun lost => ?_⟩
    dsimp only at lost ⊢
    rw [carried, if_neg lost, (inv.unread opened).2 lost]
  turns := turns
  shown := by
    obtain silent | ⟨data, front, fits, texts, full⟩ := inv.shown
    · exact .inl silent
    · exact .inr ⟨data, front.trans (List.prefix_append _ _), fits, texts,
        fun long => (full long).trans grows⟩

/-- The client goes on without sending. -/
theorem Connection.Answered.silent (inv : m.Answered) {c : Client} {toClient : List UInt8}
    (sending : ∀ msg, c.phase = .sending msg → IsMessage msg)
    (grows : (massages m.client.out).length ≤ (massages c.out).length)
    (turns : ¬ m.lost → ¬ m.server.Closed →
      m.clientSent.length + c.due ≤ (buflen - 1) * (massages c.out).length) :
    { m with client := c, toClient }.Answered := by
  have stays := @Connection.Answered.client m inv c toClient m.toServer [] sending (by simp)
    (by simp) grows (by simpa using turns)
  rwa [List.append_nil] at stays

/-- The one text that the server shows. -/
theorem Connection.Answered.receive (inv : m.Answered) {ret : ℤ} {finished : Prop}
    (waits : m.server.phase = .receiving) (result : RecvResult m.toServer finished ret) :
    { m with
      server := m.server.received ret (m.toServer.take ret.toNat)
      toServer := m.toServer.drop ret.toNat }.Answered := by
  have opened : ¬ m.server.Closed := by simp [Server.Closed, waits]
  obtain ⟨silent, wire⟩ := inv.unread opened
  have lost : m.lost → m.toServer.drop ret.toNat = [] := by
    intro lost
    rw [inv.lost lost, List.drop_nil]
  obtain received | received := m.server.received_cases (m.toServer.take ret.toNat) result
  · rw [received]
    exact { inv with
      lost
      alive := nofun
      unread := fun now => absurd (.inr rfl) now
      turns := fun _ now => absurd (.inr rfl) now
      shown := .inl (by simp [silent]) }
  · rw [received]
    have front : m.toServer.take ret.toNat <+: m.clientSent := by
      by_cases gone : m.lost
      · simp [inv.lost gone]
      · rw [wire gone]
        exact List.take_prefix _ _
    have fits : (m.toServer.take ret.toNat).length ≤ buflen :=
      (List.length_take_le _ _).trans result.toNat_le
    have plain : 0 ∉ m.toServer.take ret.toNat := fun mem => inv.plain (front.subset mem)
    -- No message fills the array: two of them at least have come together.
    have full : (m.toServer.take ret.toNat).length = buflen →
        2 ≤ (massages m.client.out).length := by
      intro long
      have gone : ¬ m.lost := by
        intro gone
        simp [inv.lost gone, buflen] at long
      have turns := inv.turns gone opened
      have := front.length_le
      simp only [buflen] at long turns
      omega
    exact { inv with
      lost
      alive := nofun
      unread := fun now => absurd (.inl rfl) now
      turns := fun _ now => absurd (.inl rfl) now
      shown := .inr ⟨m.toServer.take ret.toNat, front, fits, by
        simp [silent, shown_filled plain fits], full⟩ }

theorem Connection.Answered.step (told : m.Told) (inv : m.Answered) (step : Step m e t) :
    t.Answered := by
  cases step with
  | @serverTypes line waits read =>
    have opened : ¬ m.server.Closed := by simp [Server.Closed, waits]
    obtain typed | typed | ⟨msg, -, typed⟩ := m.server.typed_cases read
    · rw [typed]
      exact inv.server (by simp) (by nofun) (fun _ => opened) _ _
    · rw [typed]
      exact inv
    · rw [typed]
      exact inv.server (by rfl) (by nofun) (fun _ => opened) _ _
  | @serverSends msg ret waits result =>
    have opened : ¬ m.server.Closed := by simp [Server.Closed, waits]
    obtain sent | sent := m.server.sent_cases ret
    · rw [sent]
      exact inv.server (by simp) (by nofun) (fun _ => opened) _ _
    · rw [sent]
      exact inv.server (by simp) (by nofun) (fun _ => opened) _ _
  | serverKilled waits broken =>
    exact inv.server (by rfl) (by nofun) (fun now => absurd (.inr rfl) now) _ _
  | @serverReceives ret waits result => exact inv.receive waits result
  | serverLingers waits =>
    rw [Server.finish, waits]
    refine inv.server (by simp) (by nofun) (fun now => ?_) _ _
    exact absurd (.inr rfl) now
  | serverDrains waits result => exact absurd waits inv.alive
  | @clientReceives ret waits result =>
    obtain ⟨-, finished, received⟩ | received :=
      m.client.received_cases (m.toClient.take ret.toNat) result
    · rw [received]
      refine inv.silent nofun (by simp) fun lost opened => ?_
      exact absurd finished (not_or.mpr ⟨lost, opened⟩)
    · rw [received]
      -- One more message is shown, and one more may be sent.
      refine inv.silent nofun (by simp) fun lost opened => ?_
      have turns := inv.turns lost opened
      simp only [Client.due, waits] at turns
      simp only [Client.due, massages_append, List.length_append]
      exact (Nat.add_le_add_right turns _).trans (by rfl)
  | @clientProbes p ret waits recv result =>
    refine inv.silent ?_ (by rw [Client.massages_probed]) fun lost opened => ?_
    · cases p <;> nofun
    · exact absurd (told.finished p waits).2 (not_or.mpr ⟨lost, opened⟩)
  | @clientProbesSend ret waits result =>
    refine inv.client nofun ?_ rfl (by rw [Client.massages_probed]) fun lost opened => ?_
    · exact fun mem => absurd (List.mem_of_mem_take mem) (by decide)
    · exact absurd (told.finished _ waits).2 (not_or.mpr ⟨lost, opened⟩)
  | @clientTypes line waits read =>
    have turns := inv.turns
    rw [Client.due, waits] at turns
    obtain typed | typed | ⟨msg, message, typed⟩ := m.client.typed_cases read
    · rw [typed]
      refine inv.silent nofun (by simp) fun lost opened => ?_
      have := turns lost opened
      simp only [Client.due, massages_append, List.length_append]
      dsimp only at this
      simp only [Nat.mul_add]
      omega
    · rw [typed]
      exact inv
    · rw [typed]
      refine inv.silent ?_ (Nat.le_refl _) turns
      rintro _ ⟨⟩
      exact message
  | @clientSends msg ret waits result =>
    have message := inv.sending msg waits
    have plain : 0 ∉ msg.take ret.toNat := fun mem => message.plain (List.mem_of_mem_take mem)
    -- A message takes what is due: at most one byte less than the array has.
    have taken (lost : ¬ m.lost) (opened : ¬ m.server.Closed) :
        (m.clientSent ++ msg.take ret.toNat).length ≤
          (buflen - 1) * (massages m.client.out).length := by
      have turns := inv.turns lost opened
      rw [Client.due, waits] at turns
      have short := message.short
      have part : (msg.take ret.toNat).length ≤ msg.length := List.length_take_le' _ _
      rw [List.length_append]
      dsimp only at turns
      omega
    obtain sent | sent := m.client.sent_cases ret
    · rw [sent]
      refine inv.client nofun plain rfl (by simp) fun lost opened => (taken lost opened).trans ?_
      simp
    · rw [sent]
      refine inv.client nofun plain rfl (by simp) fun lost opened => (taken lost opened).trans ?_
      simp
  | lose =>
    exact { inv with
      lost := fun _ => rfl
      unread := fun opened => ⟨(inv.unread opened).1, fun gone => absurd rfl gone⟩
      turns := fun gone => absurd rfl gone }

/-! ### What the server has sent -/

/-- The server is behind its only `send`, or will not come to it. -/
def Server.Spoken (s : Server) : Prop := s.phase ≠ .typing ∧ ∀ msg, s.phase ≠ .sending msg

theorem Server.Closed.spoken {s : Server} (closed : s.Closed) : s.Spoken :=
  ⟨closed.not_typing, closed.not_sending⟩

/-- What a step can do to the words of the server. -/
theorem Step.server_cases (step : Step m e t) :
    (∃ line, e = .serverTypes line ∧ m.server.phase = .typing ∧
        t.server = m.server.typed line ∧ t.serverSent = m.serverSent) ∨
      (∃ msg ret, e = .serverSends ret ∧ m.server.phase = .sending msg ∧ t.server.Spoken ∧
        t.serverSent = m.serverSent ++ msg.take ret.toNat) ∨
      e.isServerSend = false ∧ t.serverSent = m.serverSent ∧
        (t.server = m.server ∨ t.server.Spoken) := by
  cases step with
  | @serverTypes line waits read => exact .inl ⟨line, rfl, waits, rfl, rfl⟩
  | @serverSends msg ret waits result =>
    refine .inr (.inl ⟨msg, ret, rfl, waits, ?_, rfl⟩)
    dsimp only
    obtain sent | sent := m.server.sent_cases ret <;> rw [sent] <;> exact ⟨nofun, nofun⟩
  | serverKilled waits broken =>
    exact .inr (.inr ⟨rfl, rfl, .inr (Server.Closed.spoken (.inr rfl))⟩)
  | @serverReceives ret waits result =>
    refine .inr (.inr ⟨rfl, rfl, .inr (Server.Closed.spoken ?_)⟩)
    dsimp only
    obtain received | received := m.server.received_cases (m.toServer.take ret.toNat) result
    · rw [received]
      exact .inr rfl
    · rw [received]
      exact .inl rfl
  | serverLingers waits =>
    exact .inr (.inr ⟨rfl, rfl, .inr (Server.Closed.spoken (.inr (by rw [Server.finish, waits])))⟩)
  | serverDrains waits result =>
    exact .inr (.inr ⟨rfl, rfl, .inr (Server.Closed.spoken (.inr (by rw [Server.finish, waits])))⟩)
  | clientReceives waits result => exact .inr (.inr ⟨rfl, rfl, .inl rfl⟩)
  | clientProbes waits recv result => exact .inr (.inr ⟨rfl, rfl, .inl rfl⟩)
  | clientProbesSend waits result => exact .inr (.inr ⟨rfl, rfl, .inl rfl⟩)
  | clientTypes waits read => exact .inr (.inr ⟨rfl, rfl, .inl rfl⟩)
  | clientSends waits result => exact .inr (.inr ⟨rfl, rfl, .inl rfl⟩)
  | lose => exact .inr (.inr ⟨rfl, rfl, .inl rfl⟩)

/-- The words of a line that was typed at the server in the run. -/
def TypedAtServer (run : List Event) (words : List UInt8) : Prop :=
  ∃ line, .serverTypes line ∈ run ∧ readWords line = .message words

theorem TypedAtServer.append {run : List Event} {words : List UInt8}
    (typed : TypedAtServer run words) (e : Event) : TypedAtServer (run ++ [e]) words :=
  typed.imp fun _ => And.imp_left (List.mem_append_left _)

/-- What a run has to do with the words of the server. -/
structure Connection.Traced (m : Connection) (run : List Event) : Prop where
  sending : ∀ msg, m.server.phase = .sending msg → TypedAtServer run msg
  before : ¬ m.server.Spoken → m.serverSent = [] ∧ run.countP Event.isServerSend = 0
  once : run.countP Event.isServerSend ≤ 1
  sent : m.serverSent = [] ∨ ∃ words, TypedAtServer run words ∧ m.serverSent <+: words

theorem Connection.Traced.step {run : List Event} (inv : m.Traced run) (step : Step m e t) :
    t.Traced (run ++ [e]) := by
  have sent : m.serverSent = [] ∨
      ∃ words, TypedAtServer (run ++ [e]) words ∧ m.serverSent <+: words :=
    inv.sent.imp_right fun ⟨words, typed, front⟩ => ⟨words, typed.append e, front⟩
  obtain ⟨line, rfl, waits, server, same⟩ | ⟨msg, ret, rfl, waits, spoken, grown⟩ |
    ⟨other, same, stays⟩ := step.server_cases
  · have silent := inv.before fun spoken => spoken.1 waits
    constructor
    case sending =>
      intro msg sending
      refine ⟨line, by simp, ?_⟩
      rw [server, Server.typed] at sending
      split at sending
      · cases sending
      · rw [waits] at sending
        cases sending
      · cases sending
        assumption
    case before => exact fun _ => ⟨same.trans silent.1, by simp [silent.2, Event.isServerSend]⟩
    case once => simp [silent.2, Event.isServerSend]
    case sent => rwa [same]
  · -- The only `send`: nothing has been sent before.
    have silent := inv.before fun spoken => spoken.2 msg waits
    constructor
    case sending => exact fun msg sending => absurd sending (spoken.2 msg)
    case before => exact fun now => absurd spoken now
    case once => simp [silent.2, Event.isServerSend]
    case sent =>
      refine .inr ⟨msg, (inv.sending msg waits).append _, ?_⟩
      rw [grown, silent.1, List.nil_append]
      exact List.take_prefix _ _
  · have count : (run ++ [e]).countP Event.isServerSend = run.countP Event.isServerSend := by
      simp [other]
    constructor
    case sending =>
      intro msg sending
      obtain server | spoken := stays
      · exact (inv.sending msg (server ▸ sending)).append e
      · exact absurd sending (spoken.2 msg)
    case before =>
      intro now
      obtain server | spoken := stays
      · rw [same, count]
        exact inv.before (server ▸ now)
      · exact absurd spoken now
    case once => exact count.trans_le inv.once
    case sent => rwa [same]

/-! ### Every run -/

theorem traced_of_steps {run : List Event} (steps : connection.Steps .start run m) :
    m.Traced run := by
  induction steps with
  | refl =>
    exact
      { sending := nofun
        before := fun _ => ⟨rfl, rfl⟩
        once := Nat.zero_le 1
        sent := .inl rfl }
  | tail _ last ih => exact ih.step last

theorem inv_of_reachable (reach : connection.Reachable m) : m.Told ∧ m.Answered := by
  apply reach.invariant
  · rintro _ rfl
    constructor
    · exact
        { lost := nofun
          typing := fun _ => rfl
          sending := nofun
          sent := ⟨ascii "a", ⟨ascii "a", ⟨by decide, by decide⟩, by decide⟩, List.nil_prefix⟩
          shown := ⟨[], rfl, List.nil_prefix⟩
          finished := nofun }
    · exact
        { lost := nofun
          alive := nofun
          sending := nofun
          plain := List.not_mem_nil
          unread := fun _ => ⟨rfl, fun _ => rfl⟩
          turns := fun _ _ => Nat.le_refl _
          shown := .inl rfl }
  · rintro s a t step ⟨told, answered⟩
    exact ⟨told.step step, answered.step told step⟩

/-! A run in which an array is printed that has no terminator. -/

/-- A turn of the client in which one byte has come. -/
theorem reachable_turn (reach : connection.Reachable m) (waits : m.client.phase = .receiving)
    (fine : m.lost = false) {b : UInt8} {rest line msg : List UInt8}
    (next : m.toClient = b :: rest) (plain : b ≠ 0) (read : IsLine line)
    (words : readWords line = .message msg) (some_word : 0 < toUInt32 msg.length) :
    connection.Reachable
      { m with
        client := ⟨.receiving, m.client.out ++ [.receiveMassage (some [b])] ++ [.sendSuccessful]⟩
        toClient := rest
        toServer := m.toServer ++ msg
        clientSent := m.clientSent ++ msg } := by
  have hears : Step m (.clientReceives 1)
      { m with
        client := ⟨.typing, m.client.out ++ [.receiveMassage (some [b])]⟩
        toClient := rest } := by
    have text : shown (filled [b]) = some [b] :=
      shown_filled (by simpa using plain.symm) (show 1 ≤ 100 by decide)
    have received : m.client.received 1 [b] =
        ⟨.typing, m.client.out ++ [.receiveMassage (shown (filled [b]))]⟩ := rfl
    have step := @Step.clientReceives m 1 waits
      (.inr (.inr ⟨1, rfl, by decide, by decide, by simp [next]⟩))
    rwa [next, Int.toNat_one, List.take_succ_cons, List.take_zero, received, text,
      List.drop_succ_cons, List.drop_zero] at step
  have types := (reach.extend hears).extend (Step.clientTypes rfl read)
  rw [Client.typed, words] at types
  have sends := types.extend (Step.clientSends rfl (.inr ⟨msg.length, rfl, Nat.le_refl _,
    List.eq_nil_of_length_eq_zero⟩))
  rw [Client.sent, if_pos some_word] at sends
  simpa [Connection.clientSends, Connection.carry, fine] using sends

/-- A line that fills the array. -/
def longLine : List UInt8 := List.replicate 99 0x78

theorem readWords_longLine : readWords longLine = .message longLine := by decide +kernel

/-- The words of the server come in two pieces, and the client answers each of them. -/
theorem two_answers : ∃ m, connection.Reachable m ∧
    massages m.client.out = [some [0x61], some [0x62]] ∧ massages m.server.out = [none] := by
  have typed := (System.Reachable.start (S := connection) rfl).extend
    (@Step.serverTypes .start (ascii "ab\n") rfl ⟨by decide, by decide⟩)
  have sent := typed.extend
    (@Step.serverSends _ (ascii "ab") 2 rfl (.inr ⟨2, rfl, by decide, by decide⟩))
  have first := @reachable_turn _ sent rfl rfl 0x61 [0x62] longLine longLine rfl (by decide)
    ⟨by decide, by decide⟩ readWords_longLine (by decide)
  have second := @reachable_turn _ first rfl rfl 0x62 [] (ascii "c\n") (ascii "c") rfl (by decide)
    ⟨by decide, by decide⟩ (by decide) (by decide)
  have third := second.extend (@Step.serverReceives _ 100 rfl
    (.inr (.inr ⟨100, rfl, by decide, by decide, by decide⟩)))
  refine ⟨_, third, rfl, ?_⟩
  have full : shown (filled (longLine ++ ascii "c")) = none := by decide +kernel
  exact congrArg (fun t => [t]) full

/-- In every run the server sends once at most, and what it has sent are words of a line that was
typed there. The client shows the beginning of them, in pieces and without a gap; every array that
it prints is terminated. -/
theorem client_shows {run : List Event} (steps : connection.Steps .start run m) :
    run.countP Event.isServerSend ≤ 1 ∧
      (m.serverSent = [] ∨ ∃ words, TypedAtServer run words ∧ m.serverSent <+: words) ∧
      ∃ pieces : List (List UInt8), massages m.client.out = pieces.map some ∧
        pieces.flatten <+: m.serverSent := by
  have traced := traced_of_steps steps
  obtain ⟨pieces, texts, front⟩ := (inv_of_reachable ⟨_, run, rfl, steps⟩).1.shown
  exact ⟨traced.once, traced.sent, pieces, texts, (List.prefix_append _ _).trans front⟩

theorem client_shows_two_pieces : ∃ (run : List Event) (m : Connection),
    connection.Steps .start run m ∧ massages m.client.out = [some [0x61], some [0x62]] ∧
    run.countP Event.isServerSend ≤ 1 ∧
      (m.serverSent = [] ∨ ∃ words, TypedAtServer run words ∧ m.serverSent <+: words) ∧
      ∃ pieces : List (List UInt8), massages m.client.out = pieces.map some ∧
        pieces.flatten <+: m.serverSent := by
  obtain ⟨m, ⟨_, run, rfl, steps⟩, shown, -⟩ := two_answers
  exact ⟨run, m, steps, shown, client_shows steps⟩

/-- The server shows one text at most, the beginning of what the client has sent. The array that
it prints is without a terminator just if it is full; then the client has shown two messages
before, though the server sends once. -/
theorem server_shows {run : List Event} (steps : connection.Steps .start run m) :
    run.countP Event.isServerSend ≤ 1 ∧
      (massages m.server.out = [] ∨ ∃ data, data <+: m.clientSent ∧
        (data.length < buflen ∧ massages m.server.out = [some data] ∨
          data.length = buflen ∧ massages m.server.out = [none] ∧
            2 ≤ (massages m.client.out).length)) := by
  refine ⟨(traced_of_steps steps).once, ?_⟩
  obtain silent | ⟨data, front, fits, texts, full⟩ :=
    (inv_of_reachable ⟨_, run, rfl, steps⟩).2.shown
  · exact .inl silent
  · refine .inr ⟨data, front, ?_⟩
    split_ifs at texts with room
    · exact .inl ⟨room, texts⟩
    · have long : data.length = buflen := fits.antisymm (Nat.le_of_not_lt room)
      exact .inr ⟨long, texts, full long⟩

theorem server_shows_unterminated : ∃ (run : List Event) (m : Connection),
    connection.Steps .start run m ∧ massages m.server.out = [none] ∧
    run.countP Event.isServerSend ≤ 1 ∧
      (massages m.server.out = [] ∨ ∃ data, data <+: m.clientSent ∧
        (data.length < buflen ∧ massages m.server.out = [some data] ∨
          data.length = buflen ∧ massages m.server.out = [none] ∧
            2 ≤ (massages m.client.out).length)) := by
  obtain ⟨m, ⟨_, run, rfl, steps⟩, -, shown⟩ := two_answers
  exact ⟨run, m, steps, shown, server_shows steps⟩

/-- No child of the server ever reports that its client has stopped, and no client reports a
failed call. -/
theorem never_reported (reach : connection.Reachable m) :
    .clientStop ∉ m.server.out ∧ .receiveFailed ∉ m.client.out := by
  apply reach.invariant
  · rintro _ rfl
    exact ⟨List.not_mem_nil, List.not_mem_nil⟩
  · rintro s a t step ⟨server, client⟩
    cases step with
    | @serverTypes line waits read =>
      obtain typed | typed | ⟨msg, -, typed⟩ := s.server.typed_cases read <;>
        simp [typed, server, client]
    | @serverSends msg ret waits result =>
      obtain sent | sent := s.server.sent_cases ret <;> simp [sent, server, client]
    | serverKilled waits broken => exact ⟨server, client⟩
    | @serverReceives ret waits result =>
      obtain received | received := s.server.received_cases (s.toServer.take ret.toNat) result <;>
        simp [received, server, client]
    | serverLingers waits => simp [Server.finish, waits, server, client]
    | serverDrains waits result => simp [Server.finish, waits, server, client]
    | @clientReceives ret waits result =>
      obtain ⟨-, -, received⟩ | received :=
        s.client.received_cases (s.toClient.take ret.toNat) result <;>
        simp [received, server, client]
    | @clientProbes p ret waits recv result => cases p <;> simp [Client.probed, server, client]
    | clientProbesSend waits result =>
      simp [Client.probed, Connection.clientSends, server, client]
    | @clientTypes line waits read =>
      obtain typed | typed | ⟨msg, -, typed⟩ := s.client.typed_cases read <;>
        simp [typed, server, client]
    | @clientSends msg ret waits result =>
      obtain sent | sent := s.client.sent_cases ret <;>
        simp [sent, Connection.clientSends, server, client]
    | lose => exact ⟨server, client⟩

end LinuxProgram.Tcp
