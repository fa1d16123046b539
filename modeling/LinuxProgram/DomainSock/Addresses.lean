import LinuxProgram.Base.Memory
import LinuxProgram.Base.Text
import LinuxProgram.Base.Words

/-!
# Addresses and messages of the container service

`domain_sock` is a server and its clients on Unix datagram sockets with abstract
names: the first byte of `sun_path` is zero and the length of the address says how
many bytes belong to the name. The server is `@local_addr`. A client is `@` followed
by its process id, once when it binds its socket and once more when the server
addresses a reply to it.

## Main results

* `abstractAddr_name` — the name that the address code produces from a text
* `clientAddrInit_name_injective`, `clientAddrInit_name_ne_server` — names do not clash
* `LocalDataMsg.ofBytes_bytes`, `MsgData.ofBytes_bytes` — messages survive transport
-/

namespace LinuxProgram.DomainSock

open Base

/-! ### Names -/

/-- `sizeof(sun_path)`. -/
def sunPathSize : ℕ := 108

/-- `offsetof(struct sockaddr_un, sun_path)`. -/
def sunPathOffset : ℕ := 2

/-- The address part of `local_addr`: `sun_path` and the address length. -/
structure LocalAddr where
  sunPath : List UInt8
  len : ℕ
  deriving DecidableEq

/-- The name that the kernel binds or looks up: as much of `sun_path` as the address
length covers. -/
def LocalAddr.name (addr : LocalAddr) : List UInt8 := addr.sunPath.take (addr.len - sunPathOffset)

/-- The code that all four functions share: copy the text to a zeroed `sun_path`,
clear its first byte, and add the length of the text to the offset. -/
def abstractAddr (dst : List UInt8) : LocalAddr where
  sunPath := (strcpy (List.replicate sunPathSize 0) dst).set 0 0
  len := strlen dst + sunPathOffset

/-- `PATH`, the characters of `"@local_addr"` and the terminator. -/
def path : List UInt8 := [0x40, 0x6C, 0x6F, 0x63, 0x61, 0x6C, 0x5F, 0x61, 0x64, 0x64, 0x72, 0]

/-- `char dst[20] = {0}; sprintf(dst, "@%d", pid);`. -/
def pidText (pid : ℤ) : List UInt8 := store (List.replicate 20 0) (0x40 :: decimal pid)

/-- The address that `local_addr_init` prepares for requests. -/
def localAddrInit : LocalAddr := abstractAddr path

/-- The address that `local_server_init` binds. -/
def localServerInit : LocalAddr := abstractAddr path

/-- The address that `client_addr_init` binds in the process `pid`. -/
def clientAddrInit (pid : ℤ) : LocalAddr := abstractAddr (pidText pid)

/-- The address that `server_send` sends a reply for `pid` to. -/
def serverSendAddr (pid : ℤ) : LocalAddr := abstractAddr (pidText pid)

theorem pidText_text (pid : ℤ) : text (pidText pid) = 0x40 :: decimal pid := by
  apply store_text
  intro b hb
  rcases List.mem_cons.mp hb with rfl | printed
  · decide
  · exact decimal_ne_zero b printed

/-- The text of an `int` fits in `dst`. -/
theorem pidText_length {pid : ℤ} (lower : -2 ^ 31 ≤ pid) (upper : pid < 2 ^ 31) :
    (pidText pid).length = 20 := by
  have short := decimal_length_le lower upper
  rw [pidText, store_length (by rw [List.length_cons, List.length_replicate]; omega),
    List.length_replicate]

/-- An address made from a text names that text, with a zero byte in place of its
first character. -/
theorem abstractAddr_name {dst txt : List UInt8} {b : UInt8} (holds : text dst = b :: txt) :
    (abstractAddr dst).name = 0 :: txt := by
  rw [LocalAddr.name, abstractAddr, strcpy, holds, store, strlen, holds, List.length_cons,
    Nat.add_sub_cancel, List.cons_append, List.set_cons_zero, List.take_succ_cons, List.take_left]

theorem clientAddrInit_name (pid : ℤ) : (clientAddrInit pid).name = 0 :: decimal pid :=
  abstractAddr_name (pidText_text pid)

/-- Different processes bind different names. -/
theorem clientAddrInit_name_injective {pid pid' : ℤ}
    (same : (clientAddrInit pid).name = (clientAddrInit pid').name) : pid = pid' := by
  rw [clientAddrInit_name, clientAddrInit_name] at same
  exact decimal_injective (List.cons.inj same).2

/-- No process binds the name of the server. -/
theorem clientAddrInit_name_ne_server (pid : ℤ) :
    (clientAddrInit pid).name ≠ localServerInit.name := by
  intro same
  have server : localServerInit.name = 0 :: (path.drop 1).take 10 := by decide
  rw [clientAddrInit_name, server] at same
  -- The first letter is no digit.
  have letter : 0x6C ∈ decimal pid := by
    rw [(List.cons.inj same).2]
    decide
  exact absurd (decimal_byte letter).2 (by decide)

/-! ### Messages -/

/-- `struct local_data_msg`, a request. -/
structure LocalDataMsg where
  type : ℤ
  len : ℤ
  pid : ℤ
  deriving DecidableEq

/-- `struct msg_data`, a reply. -/
structure MsgData where
  msgType : ℤ
  data : ℤ
  deriving DecidableEq

namespace LocalDataMsg

/-- The bytes of a request. -/
def bytes (msg : LocalDataMsg) : List UInt8 :=
  leBytes 4 (toUInt32 msg.type) ++ leBytes 4 (toUInt32 msg.len) ++ leBytes 4 (toUInt32 msg.pid)

/-- The request that a receive leaves in a zeroed structure. -/
def ofBytes (datagram : List UInt8) : LocalDataMsg :=
  let m := Memory.write (fun _ => 0) 0 (datagram.take 12)
  { type := m.i32 0, len := m.i32 4, pid := m.i32 8 }

end LocalDataMsg

namespace MsgData

/-- The bytes of a reply. The structure was zeroed, and its last four bytes are padding. -/
def bytes (msg : MsgData) : List UInt8 :=
  leBytes 8 (toSize msg.msgType) ++ leBytes 4 (toUInt32 msg.data) ++ List.replicate 4 0

/-- The reply that a receive leaves in a zeroed buffer of 512 bytes. -/
def ofBytes (datagram : List UInt8) : MsgData :=
  let m := Memory.write (fun _ => 0) 0 (datagram.take 512)
  { msgType := toInt64 (leNat (m.read 0 8)), data := m.i32 8 }

end MsgData

/-- An `int` field inside held bytes is read back. -/
theorem i32_of_holds {m : Memory} {bs : List UInt8} {n : ℤ} {off : ℕ} (held : m.Holds 0 bs)
    (inside : off + 4 ≤ bs.length) (stored : (bs.drop off).take 4 = leBytes 4 (toUInt32 n))
    (lower : -2 ^ 31 ≤ n) (upper : n < 2 ^ 31) : m.i32 off = n := by
  have word := toUInt32_lt n
  rw [Memory.i32, Memory.u32, ← Nat.zero_add off, held.read_eq inside, stored, leNat_leBytes,
    Nat.mod_eq_of_lt (by omega), toInt32_toUInt32 lower upper]

/-- A request survives transport. -/
theorem LocalDataMsg.ofBytes_bytes {msg : LocalDataMsg}
    (type : -2 ^ 31 ≤ msg.type ∧ msg.type < 2 ^ 31) (len : -2 ^ 31 ≤ msg.len ∧ msg.len < 2 ^ 31)
    (pid : -2 ^ 31 ≤ msg.pid ∧ msg.pid < 2 ^ 31) : ofBytes msg.bytes = msg := by
  have size : msg.bytes.length = 12 := by simp [bytes]
  have held : (Memory.write (fun _ => 0) 0 (msg.bytes.take 12)).Holds 0 msg.bytes := by
    rw [List.take_of_length_le (by omega)]
    exact Memory.holds_write
  have fields : ofBytes msg.bytes = ⟨msg.type, msg.len, msg.pid⟩ := by
    rw [ofBytes]
    congr 1
    · exact i32_of_holds held (by omega) (by simp [bytes]) type.1 type.2
    · exact i32_of_holds held (by omega) (by simp [bytes]) len.1 len.2
    · -- The last field is the rest of the bytes.
      have last : (msg.bytes.drop 8).take 4 = leBytes 4 (toUInt32 msg.pid) := by
        rw [bytes, List.drop_left' (by simp), List.take_of_length_le (by simp)]
      exact i32_of_holds held (by omega) last pid.1 pid.2
  rw [fields]

/-- A reply survives transport. -/
theorem MsgData.ofBytes_bytes {msg : MsgData}
    (msgType : -2 ^ 63 ≤ msg.msgType ∧ msg.msgType < 2 ^ 63)
    (data : -2 ^ 31 ≤ msg.data ∧ msg.data < 2 ^ 31) : ofBytes msg.bytes = msg := by
  have size : msg.bytes.length = 16 := by simp [bytes]
  have held : (Memory.write (fun _ => 0) 0 (msg.bytes.take 512)).Holds 0 msg.bytes := by
    rw [List.take_of_length_le (by omega)]
    exact Memory.holds_write
  have word := toSize_lt msg.msgType
  have first : (msg.bytes.drop 0).take 8 = leBytes 8 (toSize msg.msgType) := by
    simp [bytes]
  have fields : ofBytes msg.bytes = ⟨msg.msgType, msg.data⟩ := by
    rw [ofBytes]
    congr 1
    · rw [← Nat.zero_add 0, held.read_eq (by omega), first, leNat_leBytes,
        Nat.mod_eq_of_lt (by omega), toInt64_toSize msgType.1 msgType.2]
    · exact i32_of_holds held (by omega) (by simp [bytes]) data.1 data.2
  rw [fields]

end LinuxProgram.DomainSock
