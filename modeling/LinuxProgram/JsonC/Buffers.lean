import LinuxProgram.Base.Files
import LinuxProgram.Base.Words
import Mathlib.Data.List.Infix

/-!
# The growing arrays of json-c

`printbuf.c` collects text in an array that grows, and `arraylist.c` keeps the elements
of a JSON array. Both count in `int` and are written by index. A sum that is no `int`
and an access outside of the array are no result here (`none`). Whether a call gets the
memory that it asks for is a parameter of the call.

## Main definitions

* `Printbuf`, `printbufMemappend`, … — the text and the calls on it
* `PrintCall.Yields`, `Makes` — what calls should make of a text
* `ArrayList`, `arrayListPutIdx`, … — the elements and the calls on them

## Main results

* `printbuf_run` — calls for fewer than `2 ^ 30` bytes stay inside the array, and the text is
  what the calls that had memory should make of it
* `arraylist_run` — fewer than `2 ^ 29` calls at indices below `2 ^ 29` stay inside the array,
  and the elements are those of a list that is filled up with null pointers
-/

namespace LinuxProgram.JsonC

open Base

/-! ### Text -/

/-- What the heap does during a call: whether `realloc` and the `malloc` of `vasprintf` get
their memory, and what `realloc` leaves in the bytes that it adds. -/
structure Heap where
  realloc : Bool
  malloc : Bool
  fresh : ℕ → UInt8

/-- The heap has memory. -/
def Heap.grants (h : Heap) : Bool := h.realloc && h.malloc

/-- `struct printbuf`. Its `size` is the length of the array. -/
structure Printbuf where
  buf : List UInt8
  bpos : ℕ

namespace Printbuf

/-- `p->size`. -/
def size (p : Printbuf) : ℕ := p.buf.length

/-- Store bytes at an index of the array. -/
def store (p : Printbuf) (i : ℕ) (data : List UInt8) : Option Printbuf :=
  if i + data.length ≤ p.size then some { p with buf := pwrite p.buf i data } else none

/-- The text, without its terminator. -/
def contents (p : Printbuf) : List UInt8 := p.buf.take p.bpos

end Printbuf

/-- `printbuf_new`: 32 bytes that nobody has written. -/
def printbufNew (fresh : ℕ → UInt8) : Printbuf := ⟨(List.range 32).map fresh, 0⟩

variable (h : Heap)

/-- `printbuf_extend`: the array and the result. -/
def printbufExtend (p : Printbuf) (minSize : ℕ) : Option (Printbuf × ℤ) :=
  if minSize ≤ p.size then some (p, 0)
  else do
    let doubled ← asInt (p.size * 2)
    let wanted ← asInt (minSize + 8)
    let newSize := max doubled wanted
    if h.realloc then
      some ({ p with buf := p.buf ++ (List.range (newSize - p.size)).map h.fresh }, 0)
    else some (p, -1)

/-- `memcpy` to the end of the text, and the terminator behind it. -/
def append (p : Printbuf) (data : List UInt8) : Option Printbuf := do
  let p ← p.store p.bpos data
  let p := { p with bpos := p.bpos + data.length }
  p.store p.bpos [0]

/-- `printbuf_memappend`: the text and the result. -/
def printbufMemappend (p : Printbuf) (data : List UInt8) : Option (Printbuf × ℤ) := do
  let needed ← asInt (p.bpos + data.length + 1)
  let (p, ret) ← if p.size ≤ needed then printbufExtend h p needed else some (p, 0)
  if ret < 0 then some (p, -1) else (append p data).map (·, (data.length : ℤ))

/-- `printbuf_memappend_fast`. -/
def printbufMemappendFast (p : Printbuf) (data : List UInt8) : Option Printbuf :=
  if (data.length : ℤ) < (p.size : ℤ) - p.bpos then append p data
  else (printbufMemappend h p data).map Prod.fst

/-- `printbuf_memset`: the text and the result. -/
def printbufMemset (p : Printbuf) (offset : ℤ) (charvalue : UInt8) (len : ℤ) :
    Option (Printbuf × ℤ) :=
  let offset := if offset = -1 then (p.bpos : ℤ) else offset
  -- A negative offset is in front of the array; `memset` takes a negative count for a large one.
  if offset < 0 ∨ len < 0 then none
  else do
    let sizeNeeded ← asInt (offset.toNat + len.toNat)
    let (p, ret) ← if p.size < sizeNeeded then printbufExtend h p sizeNeeded else some (p, 0)
    if ret < 0 then some (p, -1)
    else
      (p.store offset.toNat (List.replicate len.toNat charvalue)).map fun p =>
        (if p.bpos < sizeNeeded then { p with bpos := sizeNeeded } else p, 0)

/-- `sprintbuf`, of a formatted text. It does not look at the result of `printbuf_memappend`. -/
def sprintbuf (p : Printbuf) (text : List UInt8) : Option (Printbuf × ℤ) :=
  -- A text that is too long for the array on the stack is formatted again by `vasprintf`.
  if 127 < text.length ∧ h.malloc = false then some (p, -1)
  else (printbufMemappend h p text).map fun (p, _) => (p, (text.length : ℤ))

/-- `printbuf_reset`. -/
def printbufReset (p : Printbuf) : Option Printbuf :=
  (p.store 0 [0]).map fun p => { p with bpos := 0 }

/-- The calls on a `printbuf`. -/
inductive PrintCall
  | memappend (data : List UInt8)
  | memappendFast (data : List UInt8)
  | sprintbuf (text : List UInt8)
  | memset (offset : ℤ) (charvalue : UInt8) (len : ℤ)
  | reset
  deriving DecidableEq, Repr

/-- One call. -/
def Printbuf.call (p : Printbuf) : PrintCall → Option Printbuf
  | .memappend data => (printbufMemappend h p data).map Prod.fst
  | .memappendFast data => printbufMemappendFast h p data
  | .sprintbuf text => (JsonC.sprintbuf h p text).map Prod.fst
  | .memset offset charvalue len => (printbufMemset h p offset charvalue len).map Prod.fst
  | .reset => printbufReset p

/-- A sequence of calls, each with what the heap does meanwhile. -/
def Printbuf.run (p : Printbuf) (calls : List (Heap × PrintCall)) : Option Printbuf :=
  calls.foldlM (fun p (h, c) => p.call h c) p

namespace PrintCall

/-- The offsets and counts that `printbuf_memset` is meant for. -/
def Proper : PrintCall → Prop
  | .memset offset _ len => -1 ≤ offset ∧ 0 ≤ len
  | _ => True

/-- What a call should make of a text. Between the end of the text and an offset behind it,
`printbuf_memset` leaves what happens to be in the array. -/
def Yields : PrintCall → List UInt8 → List UInt8 → Prop
  | .memappend data, old, new | .memappendFast data, old, new | .sprintbuf data, old, new =>
    new = old ++ data
  | .memset offset charvalue len, old, new =>
    let start := if offset = -1 then old.length else offset.toNat
    ∃ gap, gap.length = start - old.length ∧
      new = (old ++ gap).take start ++ List.replicate len.toNat charvalue ++
        old.drop (start + len.toNat)
  | .reset, _, new => new = []

/-- How much longer a call can make a text. -/
def extent : PrintCall → ℕ
  | .memappend data | .memappendFast data | .sprintbuf data => data.length
  | .memset offset _ len => offset.toNat + len.toNat
  | .reset => 0

/-- All calls but `memset` leave a terminator behind the text. -/
def Terminates : PrintCall → Prop
  | .memset _ _ _ => False
  | _ => True

end PrintCall

/-- What a sequence of calls should make of a text. -/
inductive Makes : List PrintCall → List UInt8 → List UInt8 → Prop
  | nil (t : List UInt8) : Makes [] t t
  | snoc {calls : List PrintCall} {c : PrintCall} {t u v : List UInt8} :
    Makes calls t u → c.Yields u v → Makes (calls ++ [c]) t v

section Text

variable {h} {p : Printbuf} {data : List UInt8} {i : ℕ}

/-- The text is inside the array. -/
structure Printbuf.Valid (p : Printbuf) : Prop where
  pos : 0 < p.size
  inside : p.bpos ≤ p.size

/-- The array holds the text as a string. -/
def Printbuf.Terminated (p : Printbuf) : Prop := p.buf[p.bpos]? = some 0

theorem Printbuf.Valid.length_contents (valid : p.Valid) : p.contents.length = p.bpos :=
  List.length_take_of_le valid.inside

theorem Printbuf.store_eq (fits : i + data.length ≤ p.size) :
    p.store i data = some { p with buf := pwrite p.buf i data } :=
  if_pos fits

theorem length_pwrite {file : List UInt8} (fits : i + data.length ≤ file.length) :
    (pwrite file i data).length = file.length := by
  rw [pwrite_of_le (by omega)]
  simp only [List.length_append, List.length_take, List.length_drop]
  omega

theorem take_pwrite {file : List UInt8} (inside : i ≤ file.length) (rest : List UInt8) :
    (pwrite file i (data ++ rest)).take (i + data.length) = file.take i ++ data := by
  have start : (file.take i ++ data).length = i + data.length := by
    rw [List.length_append, List.length_take_of_le inside]
  rw [pwrite_of_le inside, ← List.append_assoc (file.take i), List.append_assoc _ rest, ← start,
    List.take_left]

/-- A call makes a text longer by its extent at most. -/
theorem PrintCall.Yields.length_le {c : PrintCall} {old new : List UInt8}
    (yields : c.Yields old new) : new.length ≤ old.length + c.extent := by
  cases c with
  | memappend data | memappendFast data | sprintbuf data =>
    rw [show new = old ++ data from yields, List.length_append]
    exact Nat.le_refl _
  | memset offset charvalue len =>
    obtain ⟨gap, length, rfl⟩ := yields
    simp only [List.length_append, List.length_take, List.length_replicate, List.length_drop,
      PrintCall.extent]
    split_ifs at length ⊢ <;> omega
  | reset =>
    rw [show new = [] from yields]
    exact Nat.zero_le _

/-- With room for the terminator, an append succeeds. -/
theorem append_spec (valid : p.Valid) (data : List UInt8) (room : p.bpos + data.length < p.size) :
    ∃ p', append p data = some p' ∧ p'.Valid ∧ p'.contents = p.contents ++ data ∧
      p'.Terminated := by
  have inside : p.bpos ≤ p.buf.length := valid.inside
  have fits : p.bpos + (data ++ [0]).length ≤ p.buf.length := by
    rw [List.length_append, List.length_singleton]
    exact room
  have first : (pwrite p.buf p.bpos data).length = p.size := length_pwrite room.le
  refine ⟨⟨pwrite p.buf p.bpos (data ++ [0]), p.bpos + data.length⟩, ?_, ⟨?_, ?_⟩, ?_, ?_⟩
  · rw [append, Printbuf.store_eq room.le, Option.bind_eq_bind, Option.bind_some,
      Printbuf.store_eq (by rw [Printbuf.size, first]; exact room), ← pwrite_pwrite inside]
  · rw [Printbuf.size, length_pwrite fits]
    exact valid.pos
  · rw [Printbuf.size, length_pwrite fits]
    exact room.le
  · exact take_pwrite inside [0]
  · have start : (p.buf.take p.bpos ++ data).length = p.bpos + data.length := by
      rw [List.length_append, List.length_take_of_le inside]
    rw [Printbuf.Terminated, pwrite_of_le inside, ← start]
    simp

/-- Growing keeps the text. An array that has to grow is smaller than what is needed, so that
its doubled size is an `int`. -/
theorem extend_spec (valid : p.Valid) (minSize : ℕ) (small : minSize ≤ 2 ^ 30) :
    printbufExtend h p minSize = some (p, -1) ∧ h.realloc = false ∨
      ∃ p', printbufExtend h p minSize = some (p', 0) ∧ p'.Valid ∧ p'.bpos = p.bpos ∧
        p'.contents = p.contents ∧ minSize ≤ p'.size ∧
        (p.size < minSize → minSize + 8 ≤ p'.size) := by
  unfold printbufExtend
  by_cases large : minSize ≤ p.size
  · rw [if_pos large]
    exact .inr ⟨p, rfl, valid, rfl, rfl, large, fun less => absurd less (by omega)⟩
  · rw [if_neg large, asInt_of_lt (by omega), asInt_of_lt (by omega)]
    dsimp only [Option.bind_eq_bind, Option.bind_some]
    split_ifs with memory
    · have size : Printbuf.size
          { p with buf := p.buf ++
            (List.range (max (p.size * 2) (minSize + 8) - p.size)).map h.fresh } =
          max (p.size * 2) (minSize + 8) := by
        rw [Printbuf.size, List.length_append, List.length_map, List.length_range, ← Printbuf.size]
        omega
      have inside := valid.inside
      refine .inr ⟨_, rfl, ⟨?_, inside.trans ?_⟩, rfl, List.take_append_of_le_length inside, ?_,
        fun _ => ?_⟩
      all_goals
        rw [size]
        omega
    · exact .inl ⟨rfl, by simpa using memory⟩

theorem memappend_spec (valid : p.Valid) (small : p.bpos + data.length < 2 ^ 30) :
    ∃ p' ret, printbufMemappend h p data = some (p', ret) ∧ p'.Valid ∧
      (p'.contents = p.contents ++ data ∧ p'.Terminated ∨ p' = p ∧ h.realloc = false) := by
  unfold printbufMemappend
  rw [asInt_of_lt (by omega)]
  dsimp only [Option.bind_eq_bind, Option.bind_some]
  by_cases full : p.size ≤ p.bpos + data.length + 1
  · rw [if_pos full]
    obtain ⟨failed, memory⟩ | ⟨q, extended, valid', bpos, contents, large, larger⟩ :=
      extend_spec (h := h) valid (p.bpos + data.length + 1) (by omega)
    · rw [failed]
      exact ⟨p, -1, rfl, valid, .inr ⟨rfl, memory⟩⟩
    · rw [extended]
      obtain ⟨p', appended, valid'', contents', terminated⟩ :=
        append_spec valid' data (by rw [bpos]; omega)
      refine ⟨p', data.length, ?_, valid'', .inl ⟨by rw [contents', contents], terminated⟩⟩
      simp [appended]
  · rw [if_neg full]
    obtain ⟨p', appended, valid', result⟩ := append_spec valid data (by omega)
    refine ⟨p', data.length, ?_, valid', .inl result⟩
    simp [appended]

/-- The text after a store at any place of the array. -/
theorem take_max_pwrite {file : List UInt8} {start : ℕ} (bpos : ℕ)
    (fits : start + data.length ≤ file.length) :
    ∃ gap, gap.length = start - bpos ∧
      (pwrite file start data).take (max bpos (start + data.length)) =
        (file.take bpos ++ gap).take start ++ data ++
          (file.take bpos).drop (start + data.length) := by
  refine ⟨(file.take start).drop bpos, ?_, ?_⟩
  · rw [List.length_drop, List.length_take_of_le (by omega)]
  · have front : (file.take bpos ++ (file.take start).drop bpos).take start = file.take start := by
      obtain before | behind := Nat.le_total start bpos
      · rw [List.drop_eq_nil_of_le (by rw [List.length_take]; omega), List.append_nil,
          List.take_take, Nat.min_eq_left before]
      · have old : file.take bpos = (file.take start).take bpos := by
          rw [List.take_take, Nat.min_eq_left behind]
        rw [old, List.take_append_drop, List.take_take, Nat.min_self]
    have length : (file.take start ++ data).length = start + data.length := by
      rw [List.length_append, List.length_take_of_le (by omega)]
    rw [front, pwrite_of_le (by omega), List.drop_take, List.take_append,
      List.take_of_length_le (by omega), length]
    congr 2
    omega

/-- Bytes are set in an array that has room for them; the text ends behind the later of its end
and theirs. -/
theorem memset_stored (valid : p.Valid) {offset len : ℤ} (charvalue : UInt8) {start : ℕ}
    (is_start : (if offset = -1 then p.contents.length else offset.toNat) = start)
    (room : start + len.toNat ≤ p.size) :
    ∃ p', (p.store start (List.replicate len.toNat charvalue)).map (fun p =>
        (if p.bpos < start + len.toNat then { p with bpos := start + len.toNat } else p,
          (0 : ℤ))) = some (p', 0) ∧
      p'.Valid ∧ (PrintCall.memset offset charvalue len).Yields p.contents p'.contents := by
  have fits : start + (List.replicate len.toNat charvalue).length ≤ p.buf.length := by
    rwa [List.length_replicate]
  have longest : (if p.bpos < start + len.toNat then
      { buf := pwrite p.buf start (List.replicate len.toNat charvalue),
        bpos := start + len.toNat }
      else { p with buf := pwrite p.buf start (List.replicate len.toNat charvalue) } :
        Printbuf) =
      { buf := pwrite p.buf start (List.replicate len.toNat charvalue),
        bpos := max p.bpos (start + len.toNat) } := by
    split_ifs with longer
    · rw [Nat.max_eq_right longer.le]
    · rw [Nat.max_eq_left (Nat.le_of_not_lt longer)]
  refine ⟨_, by rw [Printbuf.store_eq fits, Option.map_some, longest], ⟨?_, ?_⟩, ?_⟩
  · rw [Printbuf.size, length_pwrite fits]
    exact valid.pos
  · rw [Printbuf.size, length_pwrite fits]
    exact Nat.max_le.mpr ⟨valid.inside, room⟩
  · -- Between the old end and the first byte the array keeps what it held.
    obtain ⟨gap, length, text⟩ := take_max_pwrite p.bpos fits
    rw [List.length_replicate] at text
    refine ⟨gap, ?_, ?_⟩
    · rw [is_start, valid.length_contents, length]
    · rw [is_start]
      exact text

theorem memset_spec (valid : p.Valid) {offset len : ℤ} (charvalue : UInt8)
    (proper : -1 ≤ offset ∧ 0 ≤ len) (small : p.bpos + (offset.toNat + len.toNat) < 2 ^ 30) :
    ∃ p' ret, printbufMemset h p offset charvalue len = some (p', ret) ∧ p'.Valid ∧
      ((PrintCall.memset offset charvalue len).Yields p.contents p'.contents ∨
        p' = p ∧ h.realloc = false) := by
  obtain ⟨start, first⟩ : ∃ start : ℕ, (if offset = -1 then (p.bpos : ℤ) else offset) = start :=
    ⟨(if offset = -1 then (p.bpos : ℤ) else offset).toNat, by split_ifs <;> omega⟩
  have start_le : start ≤ p.bpos + offset.toNat := by
    split_ifs at first <;> omega
  have is_start : (if offset = -1 then p.contents.length else offset.toNat) = start := by
    rw [valid.length_contents]
    split_ifs at first ⊢ <;> omega
  unfold printbufMemset
  rw [first]
  dsimp only
  rw [if_neg (by omega), Int.toNat_natCast, asInt_of_lt (by omega)]
  dsimp only [Option.bind_eq_bind, Option.bind_some]
  by_cases full : p.size < start + len.toNat
  · rw [if_pos full]
    obtain ⟨failed, memory⟩ | ⟨q, extended, valid', -, contents, large, -⟩ :=
      extend_spec (h := h) valid (start + len.toNat) (by omega)
    · rw [failed]
      exact ⟨p, -1, rfl, valid, .inr ⟨rfl, memory⟩⟩
    · rw [extended]
      rw [← contents] at is_start ⊢
      obtain ⟨p', done, valid'', yields⟩ := memset_stored valid' charvalue is_start large
      exact ⟨p', 0, done, valid'', .inl yields⟩
  · rw [if_neg full]
    obtain ⟨p', done, valid', yields⟩ := memset_stored valid charvalue is_start
      (Nat.le_of_not_lt full)
    exact ⟨p', 0, done, valid', .inl yields⟩

/-- A call that gets its memory changes the text as it should; one that does not leaves it. -/
def Printbuf.Answers (h : Heap) (p : Printbuf) (c : PrintCall) : Prop :=
  ∃ p', p.call h c = some p' ∧ p'.Valid ∧
    (c.Yields p.contents p'.contents ∧ (c.Terminates → p'.Terminated) ∨
      p' = p ∧ h.grants = false)

theorem Heap.not_grants (refused : h.realloc = false) : h.grants = false := by
  rw [Heap.grants, refused, Bool.false_and]

/-- A reset needs no memory. -/
theorem Printbuf.Valid.reset (valid : p.Valid) (h : Heap) :
    ∃ p', p.call h .reset = some p' ∧ p'.Valid ∧ p'.bpos = 0 ∧ p'.Terminated := by
  have fits : 0 + [(0 : UInt8)].length ≤ p.size := valid.pos
  refine ⟨⟨pwrite p.buf 0 [0], 0⟩, by rw [Printbuf.call, printbufReset, store_eq fits]; rfl,
    ⟨?_, Nat.zero_le _⟩, rfl, ?_⟩
  · rw [Printbuf.size, length_pwrite fits]
    exact valid.pos
  · rw [Printbuf.Terminated, pwrite_of_le (Nat.zero_le _)]
    rfl

theorem Printbuf.Valid.answers (valid : p.Valid) (c : PrintCall) (proper : c.Proper)
    (small : p.bpos + c.extent < 2 ^ 30) : p.Answers h c := by
  cases c with
  | memappend data =>
    obtain ⟨p', ret, called, valid', result⟩ := memappend_spec (h := h) valid small
    exact ⟨p', by rw [Printbuf.call, called]; rfl, valid',
      result.imp (.imp_right fun t _ => t) (.imp_right Heap.not_grants)⟩
  | memappendFast data =>
    rw [Printbuf.Answers, Printbuf.call, printbufMemappendFast]
    -- Where there is room the macro copies; elsewhere it is the function.
    split_ifs with room
    · obtain ⟨p', appended, valid', contents, terminated⟩ :=
        append_spec valid data (by omega)
      exact ⟨p', appended, valid', .inl ⟨contents, fun _ => terminated⟩⟩
    · obtain ⟨p', ret, called, valid', result⟩ := memappend_spec (h := h) valid small
      exact ⟨p', by rw [called]; rfl, valid',
        result.imp (.imp_right fun t _ => t) (.imp_right Heap.not_grants)⟩
  | sprintbuf text =>
    rw [Printbuf.Answers, Printbuf.call, JsonC.sprintbuf]
    split_ifs with refused
    · exact ⟨p, rfl, valid, .inr ⟨rfl, by rw [Heap.grants, refused.2, Bool.and_false]⟩⟩
    · obtain ⟨p', ret, called, valid', result⟩ := memappend_spec (h := h) valid small
      exact ⟨p', by rw [called]; rfl, valid',
        result.imp (.imp_right fun t _ => t) (.imp_right Heap.not_grants)⟩
  | memset offset charvalue len =>
    obtain ⟨p', ret, called, valid', result⟩ := memset_spec (h := h) valid charvalue proper small
    exact ⟨p', by rw [Printbuf.call, called]; rfl, valid',
      result.imp (fun text => ⟨text, False.elim⟩) (.imp_right Heap.not_grants)⟩
  | reset =>
    obtain ⟨p', called, valid', empty, terminated⟩ := valid.reset h
    refine ⟨p', called, valid', .inl ⟨?_, fun _ => terminated⟩⟩
    show p'.contents = []
    rw [Printbuf.contents, empty, List.take_zero]

/-- A sequence of calls: those that had memory change the text. -/
theorem Printbuf.Valid.run (valid : p.Valid) (calls : List (Heap × PrintCall))
    (proper : ∀ x ∈ calls, x.2.Proper)
    (small : p.bpos + (calls.map fun x => x.2.extent).sum < 2 ^ 30) :
    ∃ p' done, p.run calls = some p' ∧ p'.Valid ∧
      ((calls.filter fun x => x.1.grants).map Prod.snd).Sublist done ∧
      done.Sublist (calls.map Prod.snd) ∧ Makes done p.contents p'.contents ∧
      p'.bpos ≤ p.bpos + (calls.map fun x => x.2.extent).sum ∧
      ∀ x ∈ calls.getLast?, x.1.grants → x.2.Terminates → p'.Terminated := by
  induction calls using List.reverseRecOn with
  | nil =>
    exact ⟨p, [], rfl, valid, .slnil, .slnil, .nil _, Nat.le_refl _, by simp⟩
  | append_singleton calls last ih =>
    obtain ⟨h, c⟩ := last
    simp only [List.map_append, List.sum_append, List.map_cons, List.map_nil,
      List.sum_singleton] at small ⊢
    obtain ⟨q, done, ran, valid, granted, sub, makes, length, -⟩ :=
      ih (fun x mem => proper x (List.mem_append_left _ mem)) (by omega)
    obtain ⟨p', called, valid', result⟩ := valid.answers (h := h) c
      (proper (h, c) (by simp)) (by omega)
    have whole : p.run (calls ++ [(h, c)]) = some p' := by
      rw [Printbuf.run, List.foldlM_append, ← Printbuf.run, ran]
      simpa using called
    -- A call that could do without memory changes the text as well, granted or not.
    obtain ⟨yields, terminated⟩ | ⟨rfl, refused⟩ := result
    · refine ⟨p', done ++ [c], whole, valid', ?_, sub.append_right [c], makes.snoc yields, ?_, ?_⟩
      · rw [List.filter_append, List.map_append]
        refine granted.append ((List.filter_sublist.map _).trans ?_)
        exact List.Sublist.refl [c]
      · have longer := yields.length_le
        rw [valid.length_contents, valid'.length_contents] at longer
        omega
      · simpa using fun _ => terminated
    · refine ⟨p', done, whole, valid', ?_, sub.trans (List.sublist_append_left _ _), makes,
        by omega, ?_⟩
      · simpa [List.filter_append, refused] using granted
      · simp [refused]

end Text

/-- Calls for fewer than `2 ^ 30` bytes stay inside the array. The text is what the calls that
had memory should make of it, and perhaps some that could do without; it is terminated if the
last call had memory and was not `memset`. -/
theorem printbuf_run (fresh : ℕ → UInt8) (calls : List (Heap × PrintCall))
    (proper : ∀ x ∈ calls, x.2.Proper)
    (small : (calls.map fun x => x.2.extent).sum < 2 ^ 30) :
    ∃ p done, (printbufNew fresh).run calls = some p ∧ p.Valid ∧
      ((calls.filter fun x => x.1.grants).map Prod.snd).Sublist done ∧
      done.Sublist (calls.map Prod.snd) ∧ Makes done [] p.contents ∧
      ∀ x ∈ calls.getLast?, x.1.grants → x.2.Terminates → p.Terminated := by
  have new : (printbufNew fresh).Valid := ⟨by simp [Printbuf.size, printbufNew], Nat.zero_le _⟩
  obtain ⟨p, done, ran, valid, granted, sub, makes, -, terminated⟩ :=
    new.run calls proper (by rwa [printbufNew, Nat.zero_add])
  exact ⟨p, done, ran, valid, granted, sub, makes, terminated⟩

/-- A text, a store that gets no memory, and a store behind a gap. -/
def threeCalls : List (Heap × PrintCall) :=
  [(⟨true, true, fun _ => 0⟩, .memappend [0x61, 0x62]),
    (⟨false, true, fun _ => 0⟩, .memset 40 0x2D 2),
    (⟨true, true, fun _ => 0⟩, .memset 4 0x2D 1)]

theorem printbuf_run_of_threeCalls :
    ∃ p done, (printbufNew fun _ => 0x3F).run threeCalls = some p ∧ p.Valid ∧
      [PrintCall.memappend [0x61, 0x62], .memset 4 0x2D 1].Sublist done ∧
      done.Sublist [.memappend [0x61, 0x62], .memset 40 0x2D 2, .memset 4 0x2D 1] ∧
      Makes done [] p.contents ∧
      ∀ x ∈ threeCalls.getLast?, x.1.grants → x.2.Terminates → p.Terminated :=
  printbuf_run (fun _ => 0x3F) threeCalls (by simp [threeCalls, PrintCall.Proper]) (by decide)

/-! ### Elements -/

/-- `struct array_list`. Its `size` is the length of the array; null pointers are the default
value. -/
structure ArrayList (ν : Type) where
  array : List ν
  length : ℕ

section Elements

variable {ν : Type} [Inhabited ν]

/-- `array_list_new`, with `ARRAY_LIST_DEFAULT_SIZE` cells. -/
def arrayListNew : ArrayList ν := ⟨List.replicate 32 default, 0⟩

/-- `array_list_expand_internal`: the array and the result. -/
def arrayListExpandInternal (granted : Bool) (arr : ArrayList ν) (upTo : ℤ) :
    Option (ArrayList ν × ℤ) :=
  if upTo < arr.array.length then some (arr, 0)
  else do
    let doubled ← asInt (arr.array.length * 2)
    let newSize := max doubled upTo.toNat
    if granted then
      some ({ arr with
        array := arr.array ++ List.replicate (newSize - arr.array.length) default }, 0)
    else some (arr, -1)

/-- `array_list_put_idx`: the array and the result. -/
def arrayListPutIdx (granted : Bool) (arr : ArrayList ν) (idx : ℤ) (data : ν) :
    Option (ArrayList ν × ℤ) := do
  -- `idx+1` is no `int` for the largest one.
  let (arr, ret) ←
    if idx + 1 < 2 ^ 31 then arrayListExpandInternal granted arr (idx + 1) else none
  if ret ≠ 0 then some (arr, -1)
  else if 0 ≤ idx ∧ idx < arr.array.length then
    some
      ({ array := arr.array.set idx.toNat data
         length := if arr.length ≤ idx then (idx + 1).toNat else arr.length }, 0)
  else none

/-- `array_list_add`. -/
def arrayListAdd (granted : Bool) (arr : ArrayList ν) (data : ν) : Option (ArrayList ν × ℤ) :=
  arrayListPutIdx granted arr arr.length data

/-- `array_list_get_idx`. -/
def arrayListGetIdx (arr : ArrayList ν) (i : ℤ) : Option ν :=
  if arr.length ≤ i then some default
  else if 0 ≤ i then arr.array[i.toNat]?
  else none

/-- The calls on an array. -/
inductive ArrayCall (ν : Type)
  | putIdx (idx : ℤ) (data : ν)
  | add (data : ν)
  | getIdx (i : ℤ)
  | length

/-- What a call answers. -/
inductive ArrayAnswer (ν : Type)
  | ret (n : ℤ)
  | element (v : ν)
  | length (n : ℕ)
  deriving DecidableEq

/-- One call; `granted` says whether `realloc` gets its memory meanwhile. -/
def ArrayList.call (granted : Bool) (arr : ArrayList ν) :
    ArrayCall ν → Option (ArrayList ν × ArrayAnswer ν)
  | .putIdx idx data => (arrayListPutIdx granted arr idx data).map fun (arr, n) => (arr, .ret n)
  | .add data => (arrayListAdd granted arr data).map fun (arr, n) => (arr, .ret n)
  | .getIdx i => (arrayListGetIdx arr i).map fun v => (arr, .element v)
  | .length => some (arr, .length arr.length)

/-- A sequence of calls and their answers, while there is memory. -/
def ArrayList.run : ArrayList ν → List (ArrayCall ν) → Option (ArrayList ν × List (ArrayAnswer ν))
  | arr, [] => some (arr, [])
  | arr, c :: calls => do
    let (arr, answer) ← arr.call true c
    let (arr, answers) ← arr.run calls
    some (arr, answer :: answers)

/-- The indices that are fine: not negative, and small where the array has to grow. -/
def ArrayCall.Proper : ArrayCall ν → Prop
  | .putIdx idx _ => 0 ≤ idx ∧ idx < 2 ^ 29
  | .getIdx i => 0 ≤ i
  | _ => True

/-- A list with an element put at an index, behind null pointers if need be. -/
def putIdx (l : List ν) (idx : ℕ) (data : ν) : List ν :=
  if idx < l.length then l.set idx data
  else l ++ List.replicate (idx - l.length) default ++ [data]

/-- One call on a list. -/
def arrayCall (l : List ν) : ArrayCall ν → List ν × ArrayAnswer ν
  | .putIdx idx data => (putIdx l idx.toNat data, .ret 0)
  | .add data => (l ++ [data], .ret 0)
  | .getIdx i => (l, .element (l.getD i.toNat default))
  | .length => (l, .length l.length)

/-- A sequence of calls on a list and their answers. -/
def arrayRun : List ν → List (ArrayCall ν) → List ν × List (ArrayAnswer ν)
  | l, [] => (l, [])
  | l, c :: calls =>
    let (l, answer) := arrayCall l c
    let (l, answers) := arrayRun l calls
    (l, answer :: answers)

/-- The elements of the array; the cells behind them hold null pointers. -/
structure ArrayList.Holds (arr : ArrayList ν) (l : List ν) : Prop where
  length : arr.length = l.length
  cells : ∃ free, arr.array = l ++ List.replicate free default

variable {arr : ArrayList ν} {l : List ν}

theorem ArrayList.Holds.expand (holds : arr.Holds l) {upTo : ℕ} (small : upTo < 2 ^ 30) :
    ∃ arr', arrayListExpandInternal true arr upTo = some (arr', 0) ∧ arr'.Holds l ∧
      upTo ≤ arr'.array.length := by
  obtain ⟨free, cells⟩ := holds.cells
  unfold arrayListExpandInternal
  by_cases large : (upTo : ℤ) < arr.array.length
  · rw [if_pos large]
    exact ⟨arr, rfl, holds, by omega⟩
  · -- The array is no larger than `upTo`, so its doubled size is an `int`.
    rw [if_neg large, asInt_of_lt (by omega)]
    refine ⟨_, rfl, ⟨holds.length, free + (max (arr.array.length * 2) upTo -
      arr.array.length), ?_⟩, ?_⟩
    · dsimp only
      rw [Int.toNat_natCast, cells, List.append_assoc, List.replicate_append_replicate]
    · simp only [List.length_append, List.length_replicate, Int.toNat_natCast]
      omega

theorem length_putIdx (l : List ν) (idx : ℕ) (data : ν) :
    (putIdx l idx data).length = max l.length (idx + 1) := by
  unfold putIdx
  split_ifs with old
  · rw [List.length_set]
    omega
  · simp only [List.length_append, List.length_replicate, List.length_singleton]
    omega

/-- Cells behind the elements hold null pointers, so a gap is filled with them. -/
theorem ArrayList.Holds.put (holds : arr.Holds l) (idx : ℕ) (small : idx + 1 < 2 ^ 30) (data : ν) :
    ∃ arr', arrayListPutIdx true arr idx data = some (arr', 0) ∧
      arr'.Holds (putIdx l idx data) := by
  obtain ⟨arr', expanded, ⟨length, free, cells⟩, large⟩ := holds.expand small
  rw [arrayListPutIdx, if_pos (by omega), show (idx : ℤ) + 1 = (idx + 1 : ℕ) by omega, expanded]
  dsimp only [Option.bind_eq_bind, Option.bind_some]
  rw [if_neg (by simp), if_pos ⟨by omega, by omega⟩]
  refine ⟨_, rfl, ⟨?_, ?_⟩⟩
  · dsimp only
    rw [length_putIdx, length]
    split_ifs with new <;> omega
  · dsimp only
    rw [Int.toNat_natCast, putIdx]
    split_ifs with old
    · exact ⟨free, by rw [cells, List.set_append_left _ _ old]⟩
    · rw [cells, List.length_append, List.length_replicate] at large
      obtain ⟨rest, rfl⟩ : ∃ rest, free = idx - l.length + (1 + rest) :=
        ⟨free - (idx - l.length) - 1, by omega⟩
      refine ⟨rest, ?_⟩
      rw [cells, List.set_append_right _ _ (by omega), List.replicate_add, List.replicate_add,
        List.set_append_right _ _ (by simp), List.length_replicate, Nat.sub_self]
      simp

theorem ArrayList.Holds.call (holds : arr.Holds l) (c : ArrayCall ν) (proper : c.Proper)
    (small : l.length + 1 < 2 ^ 30) :
    ∃ arr', arr.call true c = some (arr', (arrayCall l c).2) ∧ arr'.Holds (arrayCall l c).1 := by
  cases c with
  | putIdx idx data =>
    obtain ⟨n, rfl⟩ := Int.eq_ofNat_of_zero_le proper.1
    obtain ⟨arr', put, holds'⟩ := holds.put n (by have := proper.2; omega) data
    exact ⟨arr', by rw [ArrayList.call, put]; rfl, holds'⟩
  | add data =>
    obtain ⟨arr', put, holds'⟩ := holds.put arr.length (by rw [holds.length]; exact small) data
    refine ⟨arr', by rw [ArrayList.call, arrayListAdd, put]; rfl, ?_⟩
    have last : putIdx l arr.length data = l ++ [data] := by simp [putIdx, holds.length]
    rwa [last] at holds'
  | getIdx i =>
    refine ⟨arr, ?_, holds⟩
    obtain ⟨free, cells⟩ := holds.cells
    obtain ⟨n, rfl⟩ := Int.eq_ofNat_of_zero_le proper
    rw [ArrayList.call, arrayListGetIdx, holds.length, if_pos (Int.natCast_nonneg n)]
    split_ifs with outside
    · simp [arrayCall, List.getElem?_eq_none (Int.ofNat_le.mp outside)]
    · have inside : n < l.length := by omega
      rw [Int.toNat_natCast, cells, List.getElem?_append_left inside,
        List.getElem?_eq_getElem inside]
      simp [arrayCall, List.getElem?_eq_getElem inside]
  | length => exact ⟨arr, by rw [ArrayList.call, holds.length]; rfl, holds⟩

/-- A call makes the list longer by one at most, or as long as its index says. -/
theorem length_arrayCall_le (l : List ν) {c : ArrayCall ν} (proper : c.Proper) :
    (arrayCall l c).1.length ≤ max (l.length + 1) (2 ^ 29) := by
  cases c with
  | putIdx idx data =>
    rw [arrayCall, length_putIdx]
    have := proper.2
    omega
  | add data =>
    rw [arrayCall, List.length_append]
    exact Nat.le_max_left _ _
  | getIdx i | length =>
    dsimp only [arrayCall]
    omega

theorem ArrayList.Holds.run {calls : List (ArrayCall ν)} (proper : ∀ c ∈ calls, c.Proper)
    (few : calls.length < 2 ^ 29) (holds : arr.Holds l) (small : l.length + calls.length < 2 ^ 30) :
    ∃ arr', arr.run calls = some (arr', (arrayRun l calls).2) ∧
      arr'.Holds (arrayRun l calls).1 := by
  induction calls generalizing arr l with
  | nil => exact ⟨arr, rfl, holds⟩
  | cons c calls ih =>
    rw [List.length_cons] at few small
    have proper_c := proper c List.mem_cons_self
    have length := length_arrayCall_le l proper_c
    obtain ⟨arr', called, holds'⟩ := holds.call c proper_c (by omega)
    obtain ⟨arr'', ran, holds''⟩ := ih (fun c mem => proper c (List.mem_cons_of_mem _ mem))
      (by omega) holds' (by omega)
    refine ⟨arr'', ?_, holds''⟩
    rw [ArrayList.run, called]
    simp [ran, arrayRun]

/-- With memory enough, an array behaves as a list that is filled up with null pointers, along
every sequence of fewer than `2 ^ 29` calls that put elements below index `2 ^ 29`. -/
theorem arraylist_run (calls : List (ArrayCall ν)) (proper : ∀ c ∈ calls, c.Proper)
    (few : calls.length < 2 ^ 29) :
    ∃ arr, arrayListNew.run calls = some (arr, (arrayRun [] calls).2) ∧
      arr.Holds (arrayRun [] calls).1 :=
  ArrayList.Holds.run proper few ⟨rfl, 32, rfl⟩ (by rw [List.length_nil]; omega)

end Elements

/-- Three elements and a gap. -/
theorem arraylist_run_of_gap :
    ∃ arr : ArrayList ℕ, arrayListNew.run [.putIdx 2 7, .add 8, .getIdx 1] =
        some (arr, [.ret 0, .ret 0, .element 0]) ∧ arr.Holds [0, 0, 7, 8] :=
  arraylist_run [.putIdx 2 7, .add 8, .getIdx 1]
    (by simp [ArrayCall.Proper]) (by decide)

end LinuxProgram.JsonC
