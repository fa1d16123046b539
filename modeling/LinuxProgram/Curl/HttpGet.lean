import LinuxProgram.Base.Memory
import Mathlib.Algebra.Order.BigOperators.Group.List

/-!
# Fetching a configuration over HTTP

`config_https_get` of `http_get.c` hands libcurl a callback, `my_fwrite`, and a
`config_storage` with the caller's buffer and its size. libcurl calls the callback
once for each piece of the response body, in order, and gives the transfer up as soon
as a call returns another count than the one it was given.

The callback copies every piece to the start of the buffer and keeps the size of the
smallest piece so far as the length of the result. So the caller gets the body exactly
when it came in one piece, or was empty and the callback ran at all.

## Main definitions

* `myFwrite`, `configHttpsGet` — the two functions of the source
* `EasyPerform`, `EasyPerform.Contract` — the transfer of libcurl, and what it does with
  the pieces
* `Fetched` — the caller has the body, and only its buffer was written

## Main results

* `configHttpsGet_fetched_iff` — for which pieces the body is fetched
-/

namespace LinuxProgram.Curl

open Base

/-- `config_storage`: the caller's buffer and an `int` length. -/
structure ConfigStorage where
  data : Memory
  len : ℤ

/-- The arguments of one call of the callback: `nmemb` elements of `size` bytes. -/
structure Chunk where
  buffer : Memory
  size : ℕ
  nmemb : ℕ

/-- The number of bytes that a call is given. -/
def Chunk.count (c : Chunk) : ℕ := c.size * c.nmemb

/-- The bytes that a call is given. -/
def Chunk.bytes (c : Chunk) : List UInt8 := c.buffer.read 0 c.count

/-- The response body. -/
def body (chunks : List Chunk) : List UInt8 := chunks.flatMap Chunk.bytes

/-- `my_fwrite`: the count it returns and the storage it leaves. The product of two
`size_t` is stored in an `int`. -/
def myFwrite (c : Chunk) (storage : ConfigStorage) : ℕ × ConfigStorage :=
  let len := toInt32 (c.size * c.nmemb % 2 ^ 64 : ℕ)
  let kept := if len < storage.len then len else storage.len
  -- The destination is `storage->data` in every call.
  (toSize kept, { data := storage.data.write 0 (c.buffer.read 0 (toSize kept)), len := kept })

/-- A function for `curl_easy_perform`: from the callback and the pieces in which the response
arrives, whether the transfer succeeds and the storage afterwards. -/
abbrev EasyPerform : Type :=
  (Chunk → ConfigStorage → ℕ × ConfigStorage) → List Chunk → ConfigStorage → Bool × ConfigStorage

/-- libcurl passes on the pieces in order, until the callback returns another count than the one
it was given. -/
structure EasyPerform.Contract (perform : EasyPerform) : Prop where
  ends : ∀ write storage, perform write [] storage = (true, storage)
  goes_on : ∀ write c chunks storage, (write c storage).1 = c.count →
    perform write (c :: chunks) storage = perform write chunks (write c storage).2
  gives_up : ∀ write c chunks storage, (write c storage).1 ≠ c.count →
    perform write (c :: chunks) storage = (false, (write c storage).2)

/-- `config_https_get`: the returned value and the caller's buffer. `curl` tells whether
`curl_easy_init` succeeded. -/
def configHttpsGet (perform : EasyPerform) (url : Option (List UInt8)) (data : Option Memory)
    (len : ℤ) (curl : Bool) (chunks : List Chunk) : ℤ × Option Memory :=
  match url, data with
  | some _, some data =>
    if curl then
      match perform myFwrite chunks { data, len } with
      | (true, config) => (config.len, some config.data)
      | (false, config) => (-1, some config.data)
    else (-1, some data)
  | _, _ => (-1, data)

/-! ### One call -/

/-- A call keeps the smaller of its own count and the length so far. -/
theorem myFwrite_eq {c : Chunk} {data : Memory} {n : ℕ} (given : c.count < 2 ^ 31)
    (small : n < 2 ^ 31) :
    myFwrite c { data, len := n } =
      (min c.count n,
        { data := data.write 0 (c.buffer.read 0 (min c.count n))
          len := (min c.count n : ℕ) }) := by
  have product : toInt32 (c.size * c.nmemb % 2 ^ 64 : ℕ) = c.count := by
    rw [Nat.mod_eq_of_lt (by rw [← Chunk.count]; omega), ← Chunk.count]
    exact toInt32_of_range (by omega) (by omega)
  have kept : (if (c.count : ℤ) < n then (c.count : ℤ) else n) = (min c.count n : ℕ) := by
    split_ifs with less <;> omega
  have size : toSize (min c.count n : ℕ) = min c.count n := by
    unfold toSize
    omega
  simp only [myFwrite, product, kept, size]

/-! ### The transfer -/

theorem body_length (chunks : List Chunk) :
    (body chunks).length = (chunks.map Chunk.count).sum := by
  rw [body, List.length_flatMap]
  simp [Chunk.bytes]

theorem count_le_body {chunks : List Chunk} {c : Chunk} (given : c ∈ chunks) :
    c.count ≤ (body chunks).length := by
  rw [body_length]
  exact List.le_sum_of_mem (List.mem_map_of_mem given)

section Transfer

variable {perform : EasyPerform} (contract : perform.Contract)
include contract

/-- A piece that is no longer than the pieces before it replaces what is in the buffer;
a longer one ends the transfer. -/
theorem EasyPerform.Contract.cons {c : Chunk} {data : Memory} {n : ℕ} (chunks : List Chunk)
    (given : c.count < 2 ^ 31) (small : n < 2 ^ 31) :
    perform myFwrite (c :: chunks) { data, len := n } =
      if c.count ≤ n then
        perform myFwrite chunks { data := data.write 0 c.bytes, len := c.count }
      else (false, { data := data.write 0 (c.buffer.read 0 n), len := n }) := by
  have call : myFwrite c { data, len := n } = _ := myFwrite_eq given small
  split_ifs with le
  · rw [contract.goes_on, call]
    · dsimp only
      rw [Nat.min_eq_left le]
      rfl
    · rw [call]
      exact Nat.min_eq_left le
  · rw [contract.gives_up, call]
    · dsimp only
      rw [Nat.min_eq_right (by omega)]
    · rw [call]
      dsimp only
      omega

/-- A transfer that succeeds leaves a length that no piece falls below. -/
theorem EasyPerform.Contract.len_le {chunks : List Chunk} {data : Memory} {n : ℕ}
    (given : ∀ c ∈ chunks, c.count < 2 ^ 31) (small : n < 2 ^ 31)
    (ok : (perform myFwrite chunks { data, len := n }).1 = true) :
    (perform myFwrite chunks { data, len := n }).2.len ≤ n ∧
      ∀ c ∈ chunks, (perform myFwrite chunks { data, len := n }).2.len ≤ c.count := by
  -- Along the pieces the length only shrinks.
  induction chunks generalizing data n with
  | nil =>
    rw [contract.ends]
    exact ⟨le_rfl, by simp⟩
  | cons c chunks ih =>
    have first := given c List.mem_cons_self
    rw [contract.cons chunks first small] at ok ⊢
    split_ifs at ok ⊢ with le
    obtain ⟨le_first, le_rest⟩ :=
      ih (fun d later => given d (List.mem_cons_of_mem c later)) first ok
    refine ⟨by omega, fun d given => ?_⟩
    rcases List.mem_cons.mp given with rfl | later
    · exact le_first
    · exact le_rest d later

/-- Pieces without bytes leave the buffer alone and bring the length down to zero. -/
theorem EasyPerform.Contract.empty {chunks : List Chunk} (empty : ∀ c ∈ chunks, c.count = 0)
    (data : Memory) {n : ℕ} (small : n < 2 ^ 31) (ran : chunks ≠ [] ∨ n = 0) :
    perform myFwrite chunks { data, len := n } = (true, { data, len := (0 : ℕ) }) := by
  induction chunks generalizing n with
  | nil =>
    obtain rfl : n = 0 := ran.resolve_left (by simp)
    rw [contract.ends]
  | cons c chunks ih =>
    have none : c.count = 0 := empty c List.mem_cons_self
    have unchanged : data.write 0 c.bytes = data := by
      funext i
      exact Memory.write_apply_outside (by simp [Chunk.bytes, none])
    rw [contract.cons chunks (by omega) small, if_pos (by omega), unchanged, none]
    exact ih (fun d later => empty d (List.mem_cons_of_mem c later)) (by omega) (.inr rfl)

end Transfer

/-! ### The fetched body -/

/-- The caller has the whole body in its buffer of `len` bytes and knows its length. -/
structure Fetched (data data' : Memory) (len : ℕ) (body : List UInt8) (ret : ℤ) : Prop where
  holds : data'.Holds 0 body
  inside : ∀ i, len ≤ i → data' i = data i
  returned : ret = body.length

section Fetch

variable {perform : EasyPerform} {data : Memory} {len : ℕ} {chunks : List Chunk}

/-- What `config_https_get` returns when the session could be set up. -/
def fetch (perform : EasyPerform) (data : Memory) (len : ℤ) (chunks : List Chunk) : ℤ × Memory :=
  let performed := perform myFwrite chunks { data, len }
  (if performed.1 then performed.2.len else -1, performed.2.data)

theorem configHttpsGet_eq (url : List UInt8) (data : Memory) (len : ℤ) (chunks : List Chunk) :
    configHttpsGet perform (some url) (some data) len true chunks =
      ((fetch perform data len chunks).1, some (fetch perform data len chunks).2) := by
  simp only [configHttpsGet, fetch, if_true]
  rcases perform myFwrite chunks { data, len } with ⟨_ | _, config⟩ <;> rfl

variable (contract : perform.Contract)
include contract

/-- A body in one piece is fetched. -/
theorem fetched_one {c : Chunk} (small : len < 2 ^ 31) (fits : c.count ≤ len) :
    Fetched data (fetch perform data len [c]).2 len c.bytes (fetch perform data len [c]).1 := by
  have performed : perform myFwrite [c] { data, len := len } =
      (true, { data := data.write 0 c.bytes, len := c.count }) := by
    rw [contract.cons [] (by omega) small, if_pos fits, contract.ends]
  simp only [fetch, performed, if_true]
  refine ⟨Memory.holds_write, fun i past => ?_, by simp [Chunk.bytes]⟩
  apply Memory.write_apply_of_ge
  simpa [Chunk.bytes] using fits.trans past

/-- An empty body is fetched if the callback runs, or if there was no room anyway. -/
theorem fetched_empty (small : len < 2 ^ 31) (empty : ∀ c ∈ chunks, c.count = 0)
    (ran : chunks ≠ [] ∨ len = 0) :
    Fetched data (fetch perform data len chunks).2 len []
      (fetch perform data len chunks).1 := by
  simp only [fetch, contract.empty empty data small ran, if_true]
  exact ⟨rfl, fun i _ => rfl, rfl⟩

/-- A body in several pieces that is not empty is not fetched: the returned length is at
most that of the smallest piece. -/
theorem not_fetched_of_two {c d : Chunk} {rest : List Chunk} (small : len < 2 ^ 31)
    (fits : (body (c :: d :: rest)).length ≤ len) (nonempty : body (c :: d :: rest) ≠ [])
    {data' : Memory} :
    ¬ Fetched data data' len (body (c :: d :: rest))
      (fetch perform data len (c :: d :: rest)).1 := by
  rintro ⟨-, -, returned⟩
  have given : ∀ e ∈ c :: d :: rest, e.count < 2 ^ 31 := fun e mem => by
    have := count_le_body mem
    omega
  have positive := List.length_pos_iff.mpr nonempty
  simp only [fetch] at returned
  split_ifs at returned with ok
  · obtain ⟨-, smallest⟩ := contract.len_le given small ok
    have first := smallest c (by simp)
    have second := smallest d (by simp)
    have total := body_length (c :: d :: rest)
    simp only [List.map_cons, List.sum_cons] at total
    omega

end Fetch

/-- The body is fetched exactly when it came in one piece, or was empty and either came
in pieces or had no room to go to. -/
theorem configHttpsGet_fetched_iff {perform : EasyPerform} (contract : perform.Contract)
    (url : List UInt8) (data : Memory) {len : ℕ} (small : len < 2 ^ 31)
    (chunks : List Chunk) (fits : (body chunks).length ≤ len) :
    (∃ ret data', configHttpsGet perform (some url) (some data) len true chunks =
        (ret, some data') ∧
      Fetched data data' len (body chunks) ret) ↔
      chunks.length = 1 ∨ body chunks = [] ∧ (chunks ≠ [] ∨ len = 0) := by
  rw [configHttpsGet_eq]
  have unique : (∃ ret data', ((fetch perform data len chunks).1,
      some (fetch perform data len chunks).2) = (ret, some data') ∧
        Fetched data data' len (body chunks) ret) ↔
      Fetched data (fetch perform data len chunks).2 len (body chunks)
        (fetch perform data len chunks).1 := by
    simp
  rw [unique]
  by_cases nonempty : body chunks = []
  · have empty : ∀ c ∈ chunks, c.count = 0 := fun c mem => by
      have := count_le_body mem
      rw [nonempty] at this
      exact Nat.le_zero.mp this
    rw [nonempty]
    constructor
    · intro fetched
      by_cases none : chunks = []
      · subst none
        have := fetched.returned
        simp only [fetch, contract.ends] at this
        exact .inr ⟨rfl, .inr (by simpa using this)⟩
      · exact .inr ⟨rfl, .inl none⟩
    · rintro (one | ⟨-, ran⟩)
      · exact fetched_empty contract small empty (.inl (by rintro rfl; simp at one))
      · exact fetched_empty contract small empty ran
  · match chunks with
    | [] => exact absurd rfl nonempty
    | [c] =>
      have whole : body [c] = c.bytes := by simp [body]
      have count : c.count ≤ len := (count_le_body (by simp)).trans fits
      rw [whole]
      exact iff_of_true (fetched_one contract small count) (.inl rfl)
    | c :: d :: rest =>
      refine iff_of_false (not_fetched_of_two contract small fits nonempty) ?_
      rintro (one | ⟨empty, -⟩)
      · simp at one
      · exact nonempty empty

/-- A run of bytes as libcurl passes it: elements of one byte. -/
def piece (bytes : List UInt8) : Chunk :=
  { buffer := Memory.write (fun _ => 0) 0 bytes, size := 1, nmemb := bytes.length }

/-- A transfer without failures of its own. -/
def passOn : EasyPerform
  | _, [], storage => (true, storage)
  | write, c :: chunks, storage =>
    if (write c storage).1 = c.count then passOn write chunks (write c storage).2
    else (false, (write c storage).2)

theorem passOn_contract : passOn.Contract where
  ends _ _ := rfl
  goes_on _ _ _ _ same := if_pos same
  gives_up _ _ _ _ other := if_neg other

theorem configHttpsGet_fetched_iff_one_piece :
    (4 < 2 ^ 31 ∧ (body [piece [111, 107]]).length ≤ 4) ∧
      ∃ ret data', configHttpsGet passOn (some []) (some fun _ => 0) (4 : ℕ) true
          [piece [111, 107]] = (ret, some data') ∧
        Fetched (fun _ => 0) data' 4 (body [piece [111, 107]]) ret := by
  have fits : (body [piece [111, 107]]).length ≤ 4 := by decide
  exact ⟨⟨by decide, fits⟩, (configHttpsGet_fetched_iff passOn_contract [] _ (by decide)
    [piece [111, 107]] fits).mpr (.inl rfl)⟩

/-- Four bytes in two pieces: two is returned, and the body is not fetched. -/
theorem configHttpsGet_two_pieces :
    (configHttpsGet passOn (some []) (some fun _ => 0) (4 : ℕ) true
        [piece [97, 98], piece [99, 100]]).1 = 2 ∧
      ¬ ∃ ret data', configHttpsGet passOn (some []) (some fun _ => 0) (4 : ℕ) true
          [piece [97, 98], piece [99, 100]] = (ret, some data') ∧
        Fetched (fun _ => 0) data' 4 (body [piece [97, 98], piece [99, 100]]) ret := by
  rw [configHttpsGet_eq]
  constructor
  · have first : (piece [97, 98]).count ≤ 4 := by decide
    have second : (piece [99, 100]).count ≤ (piece [97, 98]).count := by decide
    rw [fetch, passOn_contract.cons _ (by decide) (by decide), if_pos first,
      passOn_contract.cons _ (by decide) (by decide), if_pos second, passOn_contract.ends]
    rfl
  · rintro ⟨ret, data', same, fetched⟩
    obtain ⟨rfl, -⟩ := Prod.mk.inj same
    exact not_fetched_of_two passOn_contract (by decide) (by decide) (by decide) fetched

end LinuxProgram.Curl
