import LinuxProgram.Base.Text
import LinuxProgram.JsonC.Buffers
import Mathlib.Data.List.DropRight

/-!
# Printing JSON values

A JSON value is what hangs together below a `json_object` pointer; a null pointer is the
value `null`. `json_object_to_json_string_ext` prints a value by calls on a `printbuf`.
They are modelled call by call: `json_escape_str` copies the characters that need no
escape in stretches, and the indentation is a `memset`.

What the C library makes of a `double` is a parameter. The text of a double goes through
an array of 128 bytes; an access outside of it is no result (`none`).

## Main definitions

* `Json.calls`, `jsonObjectToJsonStringExt` — the printing functions
* `Json.print` — the text of a value, said without the calls

## Main results

* `calls_prints` — the calls append the text of the value
* `toJsonString_text` — the string that is returned is the text of the value
-/

namespace LinuxProgram.JsonC

open Base

/-- A JSON value. The members of an object stand in the order of its linked list. -/
inductive Json (δ : Type)
  | null
  | boolean (b : Bool)
  | double (d : δ)
  | int (n : ℤ)
  | string (s : List UInt8)
  | array (items : List (Json δ))
  | object (members : List (List UInt8 × Json δ))

instance {δ : Type} : Inhabited (Json δ) := ⟨.null⟩

/-- Induction over values: over the elements of an array and the values of an object. -/
theorem Json.induct {δ : Type} {motive : Json δ → Prop} (null : motive .null)
    (boolean : ∀ b, motive (.boolean b)) (double : ∀ d, motive (.double d))
    (int : ∀ n, motive (.int n)) (string : ∀ s, motive (.string s))
    (array : ∀ items, (∀ item ∈ items, motive item) → motive (.array items))
    (object : ∀ members, (∀ m ∈ members, motive m.2) → motive (.object members)) (v : Json δ) :
    motive v := by
  refine @Json.rec δ motive (fun items => ∀ item ∈ items, motive item)
    (fun members => ∀ m ∈ members, motive m.2) (fun m => motive m.2)
    null boolean double int string array object ?_ ?_ ?_ ?_ ?_ v
  · exact nofun
  · intro item items this rest
    exact List.forall_mem_cons.mpr ⟨this, rest⟩
  · exact nofun
  · intro m members this rest
    exact List.forall_mem_cons.mpr ⟨this, rest⟩
  · exact fun _ _ this => this

mutual

/-- A value and the values inside it. -/
def Json.parts : Json δ → List (Json δ)
  | .array items => .array items :: itemParts items
  | .object members => .object members :: memberParts members
  | v => [v]

/-- The values inside the elements of an array. -/
def itemParts : List (Json δ) → List (Json δ)
  | [] => []
  | item :: items => item.parts ++ itemParts items

/-- The values inside the members of an object. -/
def memberParts : List (List UInt8 × Json δ) → List (Json δ)
  | [] => []
  | (_, value) :: members => value.parts ++ memberParts members

end

theorem Json.self_mem_parts (v : Json δ) : v ∈ v.parts := by
  cases v <;> simp [Json.parts]

theorem itemParts_eq (items : List (Json δ)) : itemParts items = items.flatMap Json.parts := by
  induction items with
  | nil => rw [itemParts, List.flatMap_nil]
  | cons item items ih => rw [itemParts, ih, List.flatMap_cons]

theorem memberParts_eq (members : List (List UInt8 × Json δ)) :
    memberParts members = members.flatMap fun m => m.2.parts := by
  induction members with
  | nil => rw [memberParts, List.flatMap_nil]
  | cons m members ih => rw [memberParts, ih, List.flatMap_cons]

theorem item_parts {items : List (Json δ)} {item v : Json δ} (mem : item ∈ items)
    (inside : v ∈ item.parts) : v ∈ (Json.array items).parts := by
  rw [Json.parts, itemParts_eq]
  exact List.mem_cons_of_mem _ (List.mem_flatMap.mpr ⟨item, mem, inside⟩)

theorem member_parts {members : List (List UInt8 × Json δ)} {m : List UInt8 × Json δ} {v : Json δ}
    (mem : m ∈ members) (inside : v ∈ m.2.parts) : v ∈ (Json.object members).parts := by
  rw [Json.parts, memberParts_eq]
  exact List.mem_cons_of_mem _ (List.mem_flatMap.mpr ⟨m, mem, inside⟩)

/-- The C library: `%f` and `%lf`. -/
structure Libc (δ : Type) where
  printF : δ → List UInt8
  scanLf : List UInt8 → Option δ

/-- `JSON_C_TO_STRING_SPACED`, `_PRETTY` and `_NOZERO`. -/
structure Flags where
  spaced : Bool
  pretty : Bool
  nozero : Bool
  deriving DecidableEq, Repr

/-! ### Strings -/

/-- `json_hex_chars`. -/
def jsonHexChars : List UInt8 := ascii "0123456789abcdefABCDEF"

/-- What stands for a byte that is not printed as it is. -/
def escapeCall (c : UInt8) : Option PrintCall :=
  if c = 0x08 then some (.memappend (ascii "\\b"))
  else if c = 0x0A then some (.memappend (ascii "\\n"))
  else if c = 0x0D then some (.memappend (ascii "\\r"))
  else if c = 0x09 then some (.memappend (ascii "\\t"))
  else if c = 0x0C then some (.memappend (ascii "\\f"))
  else if c = 0x22 then some (.memappend (ascii "\\\""))
  else if c = 0x5C then some (.memappend (ascii "\\\\"))
  else if c = 0x2F then some (.memappend (ascii "\\/"))
  else if c < 0x20 then
    some (.sprintbuf (ascii "\\u00" ++
      [jsonHexChars.getD (c >>> 4).toNat 0, jsonHexChars.getD (c &&& 0xF).toNat 0]))
  else none

/-- `if(pos - start_offset > 0) printbuf_memappend(pb, str + start_offset, pos - start_offset);` -/
def flush (pending : List UInt8) : List PrintCall :=
  if 0 < pending.length then [.memappend pending] else []

/-- The loop of `json_escape_str`. The bytes from `start_offset` to `pos` are pending. -/
def escapeLoop (pending : List UInt8) : List UInt8 → List PrintCall
  | [] => flush pending
  | c :: str =>
    match escapeCall c with
    | some call => flush pending ++ call :: escapeLoop [] str
    | none => escapeLoop (pending ++ [c]) str

/-- `json_escape_str`. -/
def jsonEscapeStr (str : List UInt8) : List PrintCall := escapeLoop [] str

/-! ### Numbers -/

/-- The `NOZERO` loop on the decimals: how many of them `p` has left behind when it has been
moved behind the last useful one. -/
def usefulDecimals (decimals : List UInt8) : ℕ :=
  (decimals.zipIdx.foldl (fun p (c, i) => if c ≠ 0x30 then i else p) 0) + 1

/-- `json_object_double_to_json_string`: the bytes that are appended, out of `char buf[128]`. -/
def doubleBytes (libc : Libc δ) (flags : Flags) (d : δ) : Option (List UInt8) :=
  -- `snprintf` cuts a long text, but returns its whole length.
  let text := libc.printF d
  let buf := text.take 127
  let comma := buf.findIdx? (· = 0x2C)
  let point := comma.or (buf.findIdx? (· = 0x2E))
  let buf := match comma with
    | some p => buf.set p 0x2E
    | none => buf
  match point with
  | some p =>
    if flags.nozero then
      -- `*(++p) = 0`: without decimals this is behind the terminator.
      let size := p + 1 + usefulDecimals (buf.drop (p + 1))
      if size < 128 then some ((buf ++ [0]).take size) else none
    else if text.length ≤ 128 then some ((buf ++ [0]).take text.length) else none
  | none => if text.length ≤ 128 then some ((buf ++ [0]).take text.length) else none

/-! ### Values -/

section Calls

variable (libc : Libc δ) (flags : Flags)

/-- `indent`. -/
def indent (level : ℕ) : List PrintCall :=
  if flags.pretty then [.memset (-1) 0x20 (level * 2)] else []

/-- A call that is made under a flag. -/
def under (flag : Bool) (text : String) : List PrintCall :=
  if flag then [.sprintbuf (ascii text)] else []

/-- What is printed before an element of an array or a member of an object. -/
def separate (hadChildren : Bool) (level : ℕ) : List PrintCall :=
  (if hadChildren then .sprintbuf (ascii ",") :: under flags.pretty "\n" else []) ++
    under flags.spaced " " ++ indent flags (level + 1)

/-- The loop over the elements or members, given the calls that print each of them. -/
def children (level : ℕ) (hadChildren : Bool) : List (List PrintCall) → List PrintCall
  | [] => []
  | child :: rest => separate flags hadChildren level ++ child ++ children level true rest

/-- What is printed before a closing bracket, and the bracket. -/
def close (hadChildren : Bool) (level : ℕ) (bracket : String) : List PrintCall :=
  (if flags.pretty then
    (if hadChildren then [.sprintbuf (ascii "\n")] else []) ++ indent flags level else []) ++
  [.sprintbuf (ascii (if flags.spaced then " " ++ bracket else bracket))]

/-- The body that `json_object_array_to_json_string` and `json_object_object_to_json_string`
share. -/
def container (level : ℕ) (opening closing : String) (inner : List (List PrintCall)) :
    List PrintCall :=
  .sprintbuf (ascii opening) :: under flags.pretty "\n" ++ children flags level false inner ++
    close flags (!inner.isEmpty) level closing

mutual

/-- The calls of `_to_json_string`. A null pointer is printed by the caller. -/
def Json.calls (level : ℕ) : Json δ → Option (List PrintCall)
  | .null => some [.sprintbuf (ascii "null")]
  | .boolean b => some [.sprintbuf (ascii (if b then "true" else "false"))]
  | .double d => (doubleBytes libc flags d).map fun data => [.memappend data]
  | .int n => some [.sprintbuf (decimal n)]
  | .string s => some (.sprintbuf (ascii "\"") :: jsonEscapeStr s ++ [.sprintbuf (ascii "\"")])
  | .array items => (itemCalls (level + 1) items).map (container flags level "[" "]")
  | .object members =>
    (memberCalls (level + 1) members).map (container flags level "\x7b" "\x7d")

/-- The calls for each element of an array. -/
def itemCalls (level : ℕ) : List (Json δ) → Option (List (List PrintCall))
  | [] => some []
  | item :: items => do
    let first ← item.calls level
    let rest ← itemCalls level items
    some (first :: rest)

/-- The calls for each member of an object. -/
def memberCalls (level : ℕ) : List (List UInt8 × Json δ) → Option (List (List PrintCall))
  | [] => some []
  | (key, value) :: members => do
    let first ← value.calls level
    let rest ← memberCalls level members
    some ((.sprintbuf (ascii "\"") :: jsonEscapeStr (text key) ++
      .sprintbuf (ascii (if flags.spaced then "\": " else "\":")) :: first) :: rest)

end

/-- `json_object_to_json_string_ext`: what the array of the `printbuf` holds afterwards, from
the first byte on. `heap` says what the heap does during each call. -/
def jsonObjectToJsonStringExt (heap : ℕ → Heap) (p : Printbuf) (value : Json δ) :
    Option (List UInt8) :=
  match value with
  | .null => some (ascii "null" ++ [0])
  | value => do
    let calls ← value.calls libc flags 0
    let p ← p.run ((PrintCall.reset :: calls).mapIdx fun i c => (heap i, c))
    some p.buf

end Calls

/-! ### The text of a value -/

/-- The letters that stand for a byte behind a backslash, with the byte. -/
def letterEscapes : List (UInt8 × UInt8) :=
  [(0x22, 0x22), (0x5C, 0x5C), (0x2F, 0x2F), (0x62, 0x08), (0x66, 0x0C), (0x6E, 0x0A),
    (0x72, 0x0D), (0x74, 0x09)]

/-- A hexadecimal digit. -/
def hexDigit (n : ℕ) : UInt8 := UInt8.ofNat (if n < 10 then 0x30 + n else 0x61 + (n - 10))

/-- One byte of a string: its letter escape, its number if it is a control character, or itself. -/
def escapeByte (c : UInt8) : List UInt8 :=
  match letterEscapes.find? (·.2 = c) with
  | some (letter, _) => [0x5C, letter]
  | none =>
    if c < 0x20 then ascii "\\u00" ++ [hexDigit (c.toNat / 16), hexDigit (c.toNat % 16)] else [c]

/-- A string in quotes. -/
def quoted (s : List UInt8) : List UInt8 := 0x22 :: (s.flatMap escapeByte ++ [0x22])

/-- Decimals without the zeroes at their end, but for the first one. -/
def trimZeroes (decimals : List UInt8) : List UInt8 :=
  decimals.take 1 ++ (decimals.drop 1).rdropWhile (· = 0x30)

/-- The text of a double that `%f` prints as `t`: with a point whatever the locale, and with
`NOZERO` with the zeroes at its end dropped. -/
def doubleText (nozero : Bool) (t : List UInt8) : List UInt8 :=
  let whole := t.takeWhile fun c => c ≠ 0x2C ∧ c ≠ 0x2E
  match t.drop whole.length with
  | [] => whole
  | _ :: decimals => whole ++ 0x2E :: if nozero then trimZeroes decimals else decimals

/-- What `%f` is expected to print: a short text with at most one point or comma, and decimals
behind it. -/
structure IsDecimal (t : List UInt8) : Prop where
  short : t.length < 128
  plain : 0 ∉ t
  form : (0x2C ∉ t ∧ 0x2E ∉ t) ∨ ∃ whole mark decimals, t = whole ++ mark :: decimals ∧
    (mark = 0x2C ∨ mark = 0x2E) ∧ decimals ≠ [] ∧ (0x2C ∉ whole ++ decimals) ∧
    0x2E ∉ whole ++ decimals

section Text

variable (libc : Libc δ) (flags : Flags)

/-- A line end in pretty texts. -/
def lineEnd : List UInt8 := if flags.pretty then [0x0A] else []

/-- A space in spaced texts. -/
def space : List UInt8 := if flags.spaced then [0x20] else []

/-- The indentation in pretty texts. -/
def margin (level : ℕ) : List UInt8 := if flags.pretty then List.replicate (level * 2) 0x20 else []

/-- Texts between brackets, separated by commas. -/
def bracketed (level : ℕ) (opening closing : UInt8) (inner : List (List UInt8)) : List UInt8 :=
  opening :: lineEnd flags ++
    (0x2C :: lineEnd flags).intercalate
      (inner.map (space flags ++ margin flags (level + 1) ++ ·)) ++
    (if inner = [] then [] else lineEnd flags) ++ margin flags level ++ space flags ++ [closing]

mutual

/-- The text of a value. -/
def Json.print (level : ℕ) : Json δ → List UInt8
  | .null => ascii "null"
  | .boolean b => ascii (if b then "true" else "false")
  | .double d => doubleText flags.nozero (libc.printF d)
  | .int n => decimal n
  | .string s => quoted s
  | .array items => bracketed flags level 0x5B 0x5D (itemTexts (level + 1) items)
  | .object members => bracketed flags level 0x7B 0x7D (memberTexts (level + 1) members)

/-- The texts of the elements of an array. -/
def itemTexts (level : ℕ) : List (Json δ) → List (List UInt8)
  | [] => []
  | item :: items => item.print level :: itemTexts level items

/-- The texts of the members of an object. A name ends at its first zero byte. -/
def memberTexts (level : ℕ) : List (List UInt8 × Json δ) → List (List UInt8)
  | [] => []
  | (key, value) :: members =>
    (quoted (text key) ++ 0x3A :: space flags ++ value.print level) :: memberTexts level members

end

end Text

/-! ### What the calls append -/

/-- What a call appends. -/
def PrintCall.bytes : PrintCall → List UInt8
  | .memappend data | .memappendFast data | .sprintbuf data => data
  | .memset _ charvalue len => List.replicate len.toNat charvalue
  | .reset => []

/-- A call that appends bytes, and no terminator among them. -/
def PrintCall.Plain : PrintCall → Prop
  | .memappend data | .memappendFast data | .sprintbuf data => 0 ∉ data
  | .memset offset charvalue len => offset = -1 ∧ 0 ≤ len ∧ charvalue ≠ 0
  | .reset => False

instance : DecidablePred PrintCall.Plain
  | .memappend data | .memappendFast data | .sprintbuf data =>
    inferInstanceAs (Decidable (0 ∉ data))
  | .memset offset charvalue len =>
    inferInstanceAs (Decidable (offset = -1 ∧ 0 ≤ len ∧ charvalue ≠ 0))
  | .reset => inferInstanceAs (Decidable False)

namespace PrintCall.Plain

variable {c : PrintCall} {old new : List UInt8}

theorem zero_notMem (plain : c.Plain) : 0 ∉ c.bytes := by
  cases c with
  | memappend | memappendFast | sprintbuf => exact plain
  | memset => exact fun mem => plain.2.2 (List.eq_of_mem_replicate mem).symm
  | reset => exact plain.elim

theorem proper (plain : c.Plain) : c.Proper := by
  cases c with
  | memset => exact ⟨plain.1.ge, plain.2.1⟩
  | _ => trivial

theorem extent (plain : c.Plain) : c.extent = c.bytes.length := by
  cases c with
  | memset =>
    rw [PrintCall.extent, bytes, plain.1, List.length_replicate]
    exact Nat.zero_add _
  | _ => rfl

theorem yields (plain : c.Plain) (yields : c.Yields old new) : new = old ++ c.bytes := by
  cases c with
  | memappend | memappendFast | sprintbuf => exact yields
  | memset =>
    obtain ⟨gap, length, rfl⟩ := yields
    rw [if_pos plain.1, Nat.sub_self] at length
    rw [if_pos plain.1, List.eq_nil_of_length_eq_zero length, List.append_nil, List.take_length,
      List.drop_eq_nil_of_le (Nat.le_add_right _ _), List.append_nil, bytes]
  | reset => exact plain.elim

end PrintCall.Plain

theorem Makes.eq_append {calls : List PrintCall} {old new : List UInt8}
    (makes : Makes calls old new) (plain : ∀ c ∈ calls, c.Plain) :
    new = old ++ calls.flatMap PrintCall.bytes := by
  induction makes with
  | nil => rw [List.flatMap_nil, List.append_nil]
  | snoc _ yields ih =>
    rw [List.forall_mem_append, List.forall_mem_singleton] at plain
    rw [plain.2.yields yields, ih plain.1, List.flatMap_append, List.flatMap_singleton,
      List.append_assoc]

/-- The calls append a text. -/
def Prints (calls : List PrintCall) (text : List UInt8) : Prop :=
  (∀ c ∈ calls, c.Plain) ∧ calls.flatMap PrintCall.bytes = text

namespace Prints

variable {calls calls' : List PrintCall} {text text' : List UInt8} {c : PrintCall}

theorem nil : Prints [] [] := ⟨nofun, rfl⟩

theorem cons (first : c.Plain) (rest : Prints calls text) :
    Prints (c :: calls) (c.bytes ++ text) :=
  ⟨List.forall_mem_cons.mpr ⟨first, rest.1⟩, by rw [List.flatMap_cons, rest.2]⟩

theorem append (first : Prints calls text) (second : Prints calls' text') :
    Prints (calls ++ calls') (text ++ text') :=
  ⟨List.forall_mem_append.mpr ⟨first.1, second.1⟩, by rw [List.flatMap_append, first.2, second.2]⟩

theorem single (plain : c.Plain) : Prints [c] c.bytes :=
  ⟨List.forall_mem_singleton.mpr plain, List.flatMap_singleton ..⟩

theorem of_eq (prints : Prints calls text) (same : text = text') : Prints calls text' :=
  same ▸ prints

theorem zero_notMem (prints : Prints calls text) : 0 ∉ text := by
  rw [← prints.2]
  intro mem
  obtain ⟨c, is_call, mem⟩ := List.mem_flatMap.mp mem
  exact (prints.1 c is_call).zero_notMem mem

theorem extents (prints : Prints calls text) :
    (calls.map PrintCall.extent).sum = text.length := by
  rw [← prints.2, List.length_flatMap]
  exact congrArg List.sum (List.map_congr_left fun c mem => (prints.1 c mem).extent)

end Prints

/-! ### Strings and doubles -/

theorem flush_prints {pending : List UInt8} (plain : 0 ∉ pending) :
    Prints (flush pending) pending := by
  unfold flush
  split_ifs with some_pending
  · exact .single plain
  · rw [List.eq_nil_of_length_eq_zero (by omega : pending.length = 0)]
    exact .nil

/-- The calls and the table agree on every byte. -/
theorem escapeCall_spec (c : UInt8) :
    (∀ call ∈ escapeCall c, call.Plain ∧ call.bytes = escapeByte c) ∧
      (escapeCall c = none → c ≠ 0 ∧ escapeByte c = [c]) := by
  revert c
  apply forall_byte
  decide +kernel

theorem escapeLoop_prints {pending : List UInt8} (str : List UInt8) (plain : 0 ∉ pending) :
    Prints (escapeLoop pending str) (pending ++ str.flatMap escapeByte) := by
  induction str generalizing pending with
  | nil =>
    rw [List.flatMap_nil, List.append_nil]
    exact flush_prints plain
  | cons c str ih =>
    rw [escapeLoop, List.flatMap_cons]
    cases escaped : escapeCall c with
    | none =>
      obtain ⟨no_zero, same⟩ := (escapeCall_spec c).2 escaped
      rw [same, ← List.append_assoc]
      refine ih fun mem => ?_
      rcases List.mem_append.mp mem with mem | mem
      · exact plain mem
      · exact no_zero (List.mem_singleton.mp mem).symm
    | some call =>
      obtain ⟨plain_call, bytes⟩ := (escapeCall_spec c).1 call escaped
      rw [← bytes]
      exact (flush_prints plain).append (.cons plain_call (ih List.not_mem_nil))

/-- Copying the unescaped characters in stretches prints what escaping each byte prints. -/
theorem jsonEscapeStr_prints (str : List UInt8) :
    Prints (jsonEscapeStr str) (str.flatMap escapeByte) :=
  escapeLoop_prints str List.not_mem_nil

theorem usefulDecimals_concat (decimals : List UInt8) (c : UInt8) :
    usefulDecimals (decimals ++ [c]) =
      if c ≠ 0x30 then decimals.length + 1 else usefulDecimals decimals := by
  simp only [usefulDecimals, List.zipIdx_append, List.foldl_append, List.zipIdx_singleton,
    List.foldl_cons, List.foldl_nil, Nat.zero_add]
  split_ifs <;> rfl

/-- The loop finds the last decimal that is no zero. -/
theorem take_usefulDecimals {decimals : List UInt8} (some_digit : decimals ≠ []) :
    usefulDecimals decimals ≤ decimals.length ∧
      decimals.take (usefulDecimals decimals) = trimZeroes decimals := by
  obtain ⟨first, rest, rfl⟩ := List.exists_cons_of_ne_nil some_digit
  clear some_digit
  induction rest using List.reverseRecOn with
  | nil =>
    have one : usefulDecimals [first] = 1 := by simp [usefulDecimals]
    rw [one]
    exact ⟨Nat.le_refl _, rfl⟩
  | append_singleton rest c ih =>
    rw [← List.cons_append, usefulDecimals_concat]
    have trimmed : trimZeroes (first :: rest ++ [c]) =
        if c = 0x30 then trimZeroes (first :: rest) else first :: rest ++ [c] := by
      simp only [trimZeroes, List.cons_append, List.take_succ_cons, List.take_zero,
        List.drop_succ_cons, List.drop_zero, List.rdropWhile_concat, decide_eq_true_eq]
      split_ifs <;> rfl
    rw [trimmed]
    by_cases zero : c = 0x30
    · rw [if_neg (not_not.mpr zero), if_pos zero, List.take_append_of_le_length ih.1,
        List.length_append]
      exact ⟨ih.1.trans (Nat.le_add_right _ _), ih.2⟩
    · rw [if_pos zero, if_neg zero]
      have length : (first :: rest ++ [c]).length = (first :: rest).length + 1 :=
        List.length_append
      exact ⟨length.ge, List.take_of_length_le length.le⟩

theorem findIdx?_of_notMem {b : UInt8} {l : List UInt8} (absent : b ∉ l) :
    l.findIdx? (· = b) = none :=
  List.findIdx?_eq_none_iff.mpr fun _ mem => decide_eq_false (ne_of_mem_of_not_mem mem absent)

theorem findIdx?_append_cons {b : UInt8} {l : List UInt8} (absent : b ∉ l) (rest : List UInt8) :
    (l ++ b :: rest).findIdx? (· = b) = some l.length := by
  rw [List.findIdx?_append, findIdx?_of_notMem absent, List.findIdx?_cons]
  simp

section Decimal

variable {t whole decimals : List UInt8} {mark : UInt8}

/-- The part of a text in front of its mark. -/
theorem takeWhile_unmarked (no_comma : 0x2C ∉ t) (no_point : 0x2E ∉ t) :
    t.takeWhile (fun c => c ≠ 0x2C ∧ c ≠ 0x2E) = t :=
  List.takeWhile_eq_self_iff.mpr fun _ mem => decide_eq_true
    ⟨ne_of_mem_of_not_mem mem no_comma, ne_of_mem_of_not_mem mem no_point⟩

theorem doubleText_of_unmarked (no_comma : 0x2C ∉ t) (no_point : 0x2E ∉ t) (nozero : Bool) :
    doubleText nozero t = t := by
  simp only [doubleText, takeWhile_unmarked no_comma no_point, List.drop_length]

theorem doubleText_of_mark (is_mark : mark = 0x2C ∨ mark = 0x2E) (no_comma : 0x2C ∉ whole)
    (no_point : 0x2E ∉ whole) (nozero : Bool) :
    doubleText nozero (whole ++ mark :: decimals) =
      whole ++ 0x2E :: if nozero then trimZeroes decimals else decimals := by
  have cut : (whole ++ mark :: decimals).takeWhile (fun c => c ≠ 0x2C ∧ c ≠ 0x2E) = whole := by
    have all := takeWhile_unmarked no_comma no_point
    rw [List.takeWhile_append_of_pos (List.takeWhile_eq_self_iff.mp all),
      List.takeWhile_cons_of_neg, List.append_nil]
    rcases is_mark with rfl | rfl <;> decide
  simp only [doubleText, cut, List.drop_left]

/-- Whatever the mark is, the array holds a point in its place afterwards. -/
theorem mark_found (is_mark : mark = 0x2C ∨ mark = 0x2E) (no_comma : 0x2C ∉ whole ++ decimals)
    (no_point : 0x2E ∉ whole ++ decimals) :
    (match (whole ++ mark :: decimals).findIdx? (· = 0x2C) with
      | some p => (whole ++ mark :: decimals).set p 0x2E
      | none => whole ++ mark :: decimals) = whole ++ 0x2E :: decimals ∧
    ((whole ++ mark :: decimals).findIdx? (· = 0x2C)).or
        ((whole ++ mark :: decimals).findIdx? (· = 0x2E)) = some whole.length := by
  rw [List.mem_append, not_or] at no_comma no_point
  rcases is_mark with rfl | rfl
  · rw [findIdx?_append_cons no_comma.1]
    simp
  · have nowhere : (0x2C : UInt8) ∉ whole ++ 0x2E :: decimals := by
      simp [no_comma]
    rw [findIdx?_of_notMem nowhere, findIdx?_append_cons no_point.1]
    exact ⟨rfl, rfl⟩

theorem doubleText_plain (usual : IsDecimal t) (nozero : Bool) : 0 ∉ doubleText nozero t := by
  have plain := usual.plain
  obtain ⟨no_comma, no_point⟩ | ⟨whole, mark, decimals, rfl, is_mark, -, no_comma, no_point⟩ :=
    usual.form
  · rwa [doubleText_of_unmarked no_comma no_point]
  · rw [List.mem_append, not_or] at no_comma no_point
    rw [doubleText_of_mark is_mark no_comma.1 no_point.1]
    simp only [List.mem_append, List.mem_cons, not_or] at plain ⊢
    refine ⟨plain.1, by decide, ?_⟩
    split_ifs
    · intro mem
      rcases List.mem_append.mp mem with mem | mem
      · exact plain.2.2 (List.mem_of_mem_take mem)
      · exact plain.2.2 (List.mem_of_mem_drop ((List.rdropWhile_prefix _ _).mem mem))
    · exact plain.2.2

end Decimal

/-- A short text in the usual form stays inside of the array, and is printed as it should be. -/
theorem doubleBytes_eq {libc : Libc δ} {flags : Flags} {d : δ} (usual : IsDecimal (libc.printF d)) :
    doubleBytes libc flags d = some (doubleText flags.nozero (libc.printF d)) := by
  have short := usual.short
  have whole_buf : (libc.printF d).take 127 = libc.printF d :=
    List.take_of_length_le (by omega)
  obtain ⟨no_comma, no_point⟩ | ⟨whole, mark, decimals, eq, is_mark, some_digit, no_comma,
    no_point⟩ := usual.form
  · simp only [doubleBytes, whole_buf, findIdx?_of_notMem no_comma, findIdx?_of_notMem no_point,
      Option.or_none, if_pos short.le, doubleText_of_unmarked no_comma no_point, List.take_left]
  · obtain ⟨point, found⟩ := mark_found is_mark no_comma no_point
    obtain ⟨inside, useful⟩ := take_usefulDecimals some_digit
    rw [List.mem_append, not_or] at no_comma no_point
    have length : (whole ++ mark :: decimals).length = whole.length + 1 + decimals.length := by
      rw [List.length_append, List.length_cons]
      omega
    -- A comma has been made a point; with `NOZERO` the last useful decimal is the end.
    have behind : (whole ++ 0x2E :: decimals).drop (whole.length + 1) = decimals := by
      rw [← List.drop_drop, List.drop_left]
      rfl
    have front (n : ℕ) (inside : n ≤ decimals.length) :
        (whole ++ 0x2E :: decimals ++ [0]).take (whole.length + 1 + n) =
          whole ++ 0x2E :: decimals.take n := by
      rw [show whole ++ 0x2E :: decimals ++ [0] = (whole ++ [0x2E]) ++ (decimals ++ [0]) by simp,
        show whole.length + 1 + n = (whole ++ [(0x2E : UInt8)]).length + n by simp,
        List.take_length_add_append, List.take_append_of_le_length inside, List.append_assoc]
      rfl
    rw [eq] at whole_buf short ⊢
    rw [doubleText_of_mark is_mark no_comma.1 no_point.1]
    simp only [doubleBytes, eq, whole_buf, point, found, behind]
    split_ifs with nozero outside outside
    · rw [front _ inside, useful]
    · omega
    · rw [length, front _ (Nat.le_refl _), List.take_length]
    · omega

/-! ### Arrays and objects -/

section Containers

variable (flags : Flags)

theorem sprintbuf_prints {t : String} (plain : 0 ∉ ascii t) :
    Prints [.sprintbuf (ascii t)] (ascii t) :=
  .single plain

theorem under_prints (flag : Bool) {t : String} (plain : 0 ∉ ascii t) :
    Prints (under flag t) (if flag then ascii t else []) := by
  unfold under
  split_ifs
  · exact sprintbuf_prints plain
  · exact .nil

theorem lineEnd_prints : Prints (under flags.pretty "\n") (lineEnd flags) :=
  under_prints flags.pretty (by decide)

theorem space_prints : Prints (under flags.spaced " ") (space flags) :=
  under_prints flags.spaced (by decide)

theorem indent_prints (level : ℕ) : Prints (indent flags level) (margin flags level) := by
  unfold indent margin
  split_ifs
  · exact .single (c := .memset (-1) 0x20 (level * 2)) ⟨rfl, by omega, by decide⟩
  · exact .nil

theorem separate_prints (hadChildren : Bool) (level : ℕ) :
    Prints (separate flags hadChildren level)
      ((if hadChildren then 0x2C :: lineEnd flags else []) ++
        (space flags ++ margin flags (level + 1))) := by
  unfold separate
  rw [List.append_assoc]
  refine .append ?_ ((space_prints flags).append (indent_prints flags _))
  split_ifs
  · exact .cons (c := .sprintbuf (ascii ",")) (by decide) (lineEnd_prints flags)
  · exact .nil

theorem close_prints (hadChildren : Bool) (level : ℕ) {bracket : String} {closing : UInt8}
    (is_bracket : ascii bracket = [closing]) (spaced : ascii (" " ++ bracket) = [0x20, closing])
    (plain : closing ≠ 0) :
    Prints (close flags hadChildren level bracket)
      ((if hadChildren then lineEnd flags else []) ++ margin flags level ++ space flags ++
        [closing]) := by
  have final : Prints [.sprintbuf (ascii (if flags.spaced then " " ++ bracket else bracket))]
      (space flags ++ [closing]) := by
    unfold space
    split_ifs
    · rw [spaced]
      exact .single (c := .sprintbuf [0x20, closing]) (by simp [PrintCall.Plain, plain.symm])
    · rw [is_bracket]
      exact .single (c := .sprintbuf [closing]) (by simp [PrintCall.Plain, plain.symm])
  rw [List.append_assoc]
  refine .append ?_ final
  cases pretty : flags.pretty with
  | false =>
    simp only [lineEnd, margin, pretty, Bool.false_eq_true, if_false, ite_self]
    exact .nil
  | true =>
    rw [if_pos rfl]
    refine .append ?_ (indent_prints flags _)
    split_ifs
    · rw [lineEnd, pretty]
      exact sprintbuf_prints (by decide)
    · exact .nil

/-- The loop puts the separators where they belong. -/
theorem children_prints (level : ℕ) {inner : List (List PrintCall)} {texts : List (List UInt8)}
    (prints : List.Forall₂ Prints inner texts) (hadChildren : Bool) :
    Prints (children flags level hadChildren inner)
      (if texts = [] then [] else (if hadChildren then 0x2C :: lineEnd flags else []) ++
        (0x2C :: lineEnd flags).intercalate
          (texts.map (space flags ++ margin flags (level + 1) ++ ·))) := by
  induction prints generalizing hadChildren with
  | nil => exact .nil
  | @cons child text inner texts first rest ih =>
    have printed := ((separate_prints flags hadChildren level).append first).append (ih true)
    rw [if_neg (List.cons_ne_nil _ _), children]
    refine printed.of_eq ?_
    cases texts with
    | nil => simp
    | cons next texts => simp [List.intercalate_cons_cons]

theorem container_prints (level : ℕ) {opening closing : String} {first last : UInt8}
    (is_first : ascii opening = [first]) (is_last : ascii closing = [last])
    (spaced : ascii (" " ++ closing) = [0x20, last]) (plain : first ≠ 0) (plain' : last ≠ 0)
    {inner : List (List PrintCall)} {texts : List (List UInt8)}
    (prints : List.Forall₂ Prints inner texts) :
    Prints (container flags level opening closing inner)
      (bracketed flags level first last texts) := by
  have empty : inner.isEmpty = texts.isEmpty := by cases prints <;> rfl
  have start : Prints [.sprintbuf (ascii opening)] [first] := by
    rw [is_first]
    exact .single (c := .sprintbuf [first]) (by simp [PrintCall.Plain, plain.symm])
  have printed := ((start.append (lineEnd_prints flags)).append
    (children_prints flags level prints false)).append
    (close_prints flags (!inner.isEmpty) level is_last spaced plain')
  refine printed.of_eq ?_
  cases texts <;> simp [bracketed, empty]

end Containers

section Calls

variable {libc : Libc δ} {flags : Flags}

theorem itemCalls_prints (level : ℕ) {items : List (Json δ)}
    (each : ∀ item ∈ items, ∃ calls, item.calls libc flags level = some calls ∧
      Prints calls (item.print libc flags level)) :
    ∃ inner, itemCalls libc flags level items = some inner ∧
      List.Forall₂ Prints inner (itemTexts libc flags level items) := by
  induction items with
  | nil => exact ⟨[], by rw [itemCalls], by rw [itemTexts]; exact .nil⟩
  | cons item items ih =>
    obtain ⟨⟨first, called, prints⟩, each⟩ := List.forall_mem_cons.mp each
    obtain ⟨inner, others, all⟩ := ih each
    refine ⟨first :: inner, by rw [itemCalls, called, others]; rfl, ?_⟩
    rw [itemTexts]
    exact .cons prints all

theorem memberCalls_prints (level : ℕ) {members : List (List UInt8 × Json δ)}
    (each : ∀ m ∈ members, ∃ calls, m.2.calls libc flags level = some calls ∧
      Prints calls (m.2.print libc flags level)) :
    ∃ inner, memberCalls libc flags level members = some inner ∧
      List.Forall₂ Prints inner (memberTexts libc flags level members) := by
  have colon : Prints [.sprintbuf (ascii (if flags.spaced then "\": " else "\":"))]
      (0x22 :: 0x3A :: space flags) := by
    unfold space
    split_ifs <;> exact sprintbuf_prints (by decide)
  have quote : Prints [.sprintbuf (ascii "\"")] [0x22] := sprintbuf_prints (by decide)
  induction members with
  | nil => exact ⟨[], by rw [memberCalls], by rw [memberTexts]; exact .nil⟩
  | cons m members ih =>
    obtain ⟨⟨first, called, prints⟩, each⟩ := List.forall_mem_cons.mp each
    obtain ⟨inner, others, all⟩ := ih each
    refine ⟨_, by rw [memberCalls, called, others]; rfl, ?_⟩
    rw [memberTexts]
    refine .cons (.of_eq ((quote.append (jsonEscapeStr_prints (text m.1))).append
      (colon.append prints)) ?_) all
    simp [quoted]

/-- The calls append the text of the value. -/
theorem calls_prints (v : Json δ)
    (doubles : ∀ d, .double d ∈ v.parts → IsDecimal (libc.printF d)) (level : ℕ) :
    ∃ calls, v.calls libc flags level = some calls ∧ Prints calls (v.print libc flags level) := by
  induction v using Json.induct generalizing level with
  | null =>
    rw [Json.calls, Json.print]
    exact ⟨_, rfl, sprintbuf_prints (by decide)⟩
  | boolean b =>
    rw [Json.calls, Json.print]
    cases b <;> exact ⟨_, rfl, sprintbuf_prints (by decide)⟩
  | double d =>
    have usual := doubles d (Json.self_mem_parts _)
    rw [Json.calls, Json.print, doubleBytes_eq usual]
    exact ⟨_, rfl, .single (doubleText_plain usual flags.nozero)⟩
  | int n =>
    rw [Json.calls, Json.print]
    exact ⟨_, rfl, .single fun mem => decimal_ne_zero _ mem rfl⟩
  | string s =>
    have quote : Prints [.sprintbuf (ascii "\"")] [0x22] := sprintbuf_prints (by decide)
    rw [Json.calls, Json.print]
    exact ⟨_, rfl, (quote.append (jsonEscapeStr_prints s)).append quote⟩
  | array items ih =>
    obtain ⟨inner, called, prints⟩ := itemCalls_prints (level + 1) fun item mem =>
      ih item mem (fun d part => doubles d (item_parts mem part)) (level + 1)
    rw [Json.calls, Json.print, called]
    exact ⟨_, rfl, container_prints flags level (by decide) (by decide) (by decide) (by decide)
      (by decide) prints⟩
  | object members ih =>
    obtain ⟨inner, called, prints⟩ := memberCalls_prints (level + 1) fun m mem =>
      ih m mem (fun d part => doubles d (member_parts mem part)) (level + 1)
    rw [Json.calls, Json.print, called]
    exact ⟨_, rfl, container_prints flags level (by decide) (by decide) (by decide) (by decide)
      (by decide) prints⟩

theorem calls_terminate {v : Json δ} {level : ℕ} {calls : List PrintCall}
    (called : v.calls libc flags level = some calls) :
    ∃ before c, calls = before ++ [c] ∧ c.Terminates := by
  have closed (opening closing : String) (inner : List (List PrintCall)) :
      ∃ before c, container flags level opening closing inner = before ++ [c] ∧ c.Terminates := by
    rw [container, close, ← List.append_assoc]
    exact ⟨_, _, rfl, trivial⟩
  cases v with
  | null | boolean | int =>
    rw [Json.calls, Option.some_inj] at called
    exact ⟨[], _, called.symm, trivial⟩
  | string s =>
    rw [Json.calls, Option.some_inj] at called
    exact ⟨_, _, called.symm, trivial⟩
  | double d =>
    rw [Json.calls, Option.map_eq_some_iff] at called
    obtain ⟨data, -, rfl⟩ := called
    exact ⟨[], _, rfl, trivial⟩
  | array items | object members =>
    rw [Json.calls, Option.map_eq_some_iff] at called
    obtain ⟨inner, -, rfl⟩ := called
    exact closed _ _ inner

end Calls

/-! ### The returned string -/

/-- A terminated text, and what the array holds behind it. -/
theorem Printbuf.Terminated.buf_eq {p : Printbuf} (terminated : p.Terminated) :
    p.buf = p.contents ++ 0 :: p.buf.drop (p.bpos + 1) := by
  obtain ⟨inside, zero⟩ := List.getElem?_eq_some_iff.mp terminated
  rw [← zero, Printbuf.contents, List.getElem_cons_drop, List.take_append_drop]

/-- With memory, calls that print a text leave it in an empty `printbuf`. -/
theorem Prints.run {calls : List PrintCall} {t : List UInt8} {p : Printbuf}
    (prints : Prints calls t) (valid : p.Valid) (empty : p.bpos = 0) (small : t.length < 2 ^ 30)
    {heap : ℕ → Heap} (memory : ∀ i, (heap i).grants) :
    ∃ p', p.run (calls.mapIdx fun i c => (heap i, c)) = some p' ∧ p'.contents = t ∧
      ∀ c ∈ calls.getLast?, c.Terminates → p'.Terminated := by
  have calls_eq : (calls.mapIdx fun i c => (heap i, c)).map Prod.snd = calls := by
    apply List.ext_getElem <;> simp
  have granted : ∀ x ∈ calls.mapIdx fun i c => (heap i, c), x.1.grants = true := by
    intro x mem
    obtain ⟨i, inside, rfl⟩ := List.mem_mapIdx.mp mem
    exact memory i
  have extents :
      ((calls.mapIdx fun i c => (heap i, c)).map fun x => x.2.extent).sum = t.length := by
    rw [← prints.extents, ← congrArg (List.map PrintCall.extent) calls_eq, List.map_map]
    rfl
  obtain ⟨p', done, ran, -, all, sub, makes, -, terminated⟩ :=
    valid.run (calls.mapIdx fun i c => (heap i, c))
      (fun x mem => (prints.1 x.2 (calls_eq ▸ List.mem_map_of_mem mem)).proper)
      (by rwa [empty, extents, Nat.zero_add])
  rw [List.filter_eq_self.mpr granted, calls_eq] at all
  rw [calls_eq] at sub
  obtain rfl := sub.antisymm all
  refine ⟨p', ran, ?_, fun c last => ?_⟩
  · have start : p.contents = [] := by rw [Printbuf.contents, empty, List.take_zero]
    rw [makes.eq_append prints.1, start, List.nil_append, prints.2]
  · rw [← calls_eq, List.getLast?_map] at last
    obtain ⟨x, is_last, rfl⟩ := Option.map_eq_some_iff.mp last
    exact terminated x is_last (granted x (List.mem_of_getLast? is_last))

/-- With memory, the array holds the text of the value and a terminator. -/
theorem toJsonString_buf {libc : Libc δ} {flags : Flags} {heap : ℕ → Heap} {p : Printbuf}
    (memory : ∀ i, (heap i).grants) (valid : p.Valid) (v : Json δ)
    (doubles : ∀ d, .double d ∈ v.parts → IsDecimal (libc.printF d))
    (small : (v.print libc flags 0).length < 2 ^ 30) :
    ∃ rest, jsonObjectToJsonStringExt libc flags heap p v =
        some (v.print libc flags 0 ++ 0 :: rest) ∧ 0 ∉ v.print libc flags 0 := by
  obtain ⟨calls, called, prints⟩ := @calls_prints δ libc flags v doubles 0
  obtain ⟨q, reset, valid', start, -⟩ := valid.reset (heap 0)
  obtain ⟨p', ran, contents, terminated⟩ := prints.run valid' start small fun i => memory (i + 1)
  obtain ⟨before, c, calls_eq, terminates⟩ := calls_terminate called
  have ends : p'.Terminated := terminated c (by rw [calls_eq, List.getLast?_concat]; rfl) terminates
  by_cases null : v = .null
  · subst null
    refine ⟨[], ?_, prints.zero_notMem⟩
    rw [Json.print]
    rfl
  · refine ⟨p'.buf.drop (p'.bpos + 1), ?_, prints.zero_notMem⟩
    have whole : p.run ((PrintCall.reset :: calls).mapIdx fun i c => (heap i, c)) = some p' := by
      rw [List.mapIdx_cons, Printbuf.run, List.foldlM_cons]
      dsimp only
      rw [reset]
      exact ran
    rw [← contents, ← ends.buf_eq, jsonObjectToJsonStringExt, called]
    · dsimp only [Option.bind_eq_bind, Option.bind_some]
      rw [whole, Option.bind_some]
    · exact null

end LinuxProgram.JsonC
