import LinuxProgram.JsonC.LinkHash
import LinuxProgram.JsonC.Values

/-!
# The language of the tokener

The texts that `json_tokener.c` accepts, as a grammar that is independent of the tokener: it
has nonterminals of its own, and says of its own what escapes and numbers stand for. It is
JSON with some liberties: comments, single quotes, words in capitals, a comma before a closing
bracket unless the tokener is strict, and numbers that are any run of the characters
`0123456789.+-eE` of which a part can be read.

The nonterminals are places: where an array or an object has come to, or a complete value.
`Reads n p name w v` says that the text `w` comes to the place `p` with the value `v` so far,
and with a name that waits for its value; `n` levels are available to it.

## Main definitions

* `Gap` — white space and comments
* `Chars` — the inside of a string and what it stands for
* `Place`, `Reads` — a value, or the beginning of an array or an object
* `Accepted` — the texts that are accepted, with their values
-/

namespace LinuxProgram.JsonC

open Base

variable {δ : Type}

/-! ### White space and comments -/

/-- Where a comment has come to: its first slash, the inside of a block, a star in it, or the
inside of a line. -/
inductive CommentPlace
  | slash | block | star | line
  deriving DecidableEq, Repr

/-- A comment that is still open. A star that is followed by anything but a slash takes this
character with it, so that `/***/` is open. -/
inductive Comment : CommentPlace → List UInt8 → Prop
  | slash : Comment .slash [0x2F]
  | block : Comment .block [0x2F, 0x2A]
  | line : Comment .line [0x2F, 0x2F]
  | inBlock {w : List UInt8} {c : UInt8} :
      Comment .block w → c ≠ 0x2A → c ≠ 0 → Comment .block (w ++ [c])
  | star {w : List UInt8} : Comment .block w → Comment .star (w ++ [0x2A])
  | again {w : List UInt8} {c : UInt8} :
      Comment .star w → c ≠ 0x2F → c ≠ 0 → Comment .block (w ++ [c])
  | inLine {w : List UInt8} {c : UInt8} :
      Comment .line w → c ≠ 0x0A → c ≠ 0 → Comment .line (w ++ [c])

/-- White space and complete comments. -/
inductive Gap : List UInt8 → Prop
  | nil : Gap []
  | space {g : List UInt8} {c : UInt8} : Gap g → isspace c → Gap (g ++ [c])
  | block {g w : List UInt8} : Gap g → Comment .star w → Gap (g ++ (w ++ [0x2F]))
  | line {g w : List UInt8} : Gap g → Comment .line w → Gap (g ++ (w ++ [0x0A]))

/-- A character that no gap begins with. -/
def Solid (c : UInt8) : Prop := isspace c = false ∧ c ≠ 0x2F

/-! ### Strings -/

/-- The value of a hexadecimal digit. -/
def hexValue (c : UInt8) : Option ℕ :=
  if 0x30 ≤ c ∧ c ≤ 0x39 then some (c.toNat - 0x30)
  else if 0x41 ≤ c ∧ c ≤ 0x46 then some (c.toNat - 0x41 + 10)
  else if 0x61 ≤ c ∧ c ≤ 0x66 then some (c.toNat - 0x61 + 10)
  else none

/-- The code unit that four digits stand for. -/
def codeUnit (a b c d : UInt8) : Option ℕ := do
  let a ← hexValue a
  let b ← hexValue b
  let c ← hexValue c
  let d ← hexValue d
  some (((a * 16 + b) * 16 + c) * 16 + d)

/-- A high surrogate. A code point is taken for one as well, if its last four digits are. -/
def HighSurrogate (u : ℕ) : Prop := 0xD800 ≤ u % 0x10000 ∧ u % 0x10000 < 0xDC00

/-- A low surrogate, or a code point that is taken for one. -/
def LowSurrogate (u : ℕ) : Prop := 0xDC00 ≤ u % 0x10000 ∧ u % 0x10000 < 0xE000

instance : DecidablePred HighSurrogate := fun _ => inferInstanceAs (Decidable (_ ∧ _))

instance : DecidablePred LowSurrogate := fun _ => inferInstanceAs (Decidable (_ ∧ _))

/-- The code point that two surrogates stand for. -/
def surrogatePair (hi lo : ℕ) : ℕ := 0x10000 + hi % 0x400 * 0x400 + lo % 0x400

/-- The bytes that stand for a surrogate that is alone. -/
def replacement : List UInt8 := String.utf8EncodeChar (Char.ofNat 0xFFFD)

/-- The bytes of a code point. -/
def utf8 (u : ℕ) : List UInt8 :=
  if LowSurrogate u then replacement else String.utf8EncodeChar (Char.ofNat u)

/-- A code unit, perhaps behind a high surrogate: the code point, and what is written before it. -/
def joined : Option ℕ → ℕ → ℕ × List UInt8
  | none, u => (u, [])
  | some hi, u => if LowSurrogate u then (surrogatePair hi u, []) else (u, replacement)

/-- What stands behind `\u`, with the high surrogate before it: the bytes it stands for, and
whether the last code unit is a high surrogate that is alone. -/
inductive Units : Option ℕ → List UInt8 → List UInt8 → Bool → Prop
  | last {hi : Option ℕ} {a b c d : UInt8} {u : ℕ} :
      codeUnit a b c d = some u → ¬ HighSurrogate (joined hi u).1 →
      Units hi [a, b, c, d] ((joined hi u).2 ++ utf8 (joined hi u).1) false
  | alone {hi : Option ℕ} {a b c d : UInt8} {u : ℕ} :
      codeUnit a b c d = some u → HighSurrogate (joined hi u).1 →
      Units hi [a, b, c, d] ((joined hi u).2 ++ replacement) true
  | more {hi : Option ℕ} {a b c d : UInt8} {u : ℕ} {w bytes : List UInt8} {alone : Bool} :
      codeUnit a b c d = some u → HighSurrogate (joined hi u).1 →
      Units (some (joined hi u).1) w bytes alone →
      Units hi (a :: b :: c :: d :: 0x5C :: 0x75 :: w) ((joined hi u).2 ++ bytes) alone

/-- The inside of a string in quotes `q`, and the bytes it stands for. Behind a high surrogate
that is alone there is no `\u`. -/
inductive Chars (q : UInt8) : Bool → List UInt8 → List UInt8 → Prop
  | nil : Chars q false [] []
  | plain {alone : Bool} {w s : List UInt8} {c : UInt8} :
      Chars q alone w s → c ≠ q → c ≠ 0x5C → c ≠ 0 → Chars q false (w ++ [c]) (s ++ [c])
  | escape {alone : Bool} {w s : List UInt8} {e b : UInt8} :
      Chars q alone w s → (e, b) ∈ letterEscapes → Chars q false (w ++ [0x5C, e]) (s ++ [b])
  | unicode {alone : Bool} {w s u bytes : List UInt8} :
      Chars q false w s → Units none u bytes alone →
      Chars q alone (w ++ 0x5C :: 0x75 :: u) (s ++ bytes)

/-- A quotation mark. -/
def Quote (q : UInt8) : Prop := q = 0x22 ∨ q = 0x27

/-! ### Numbers -/

/-- The characters of numbers. -/
def numberChars : List UInt8 := ascii "0123456789.+-eE"

/-- The characters that make a number a double. -/
def doubleChars : List UInt8 := ascii ".eE"

/-- A run of the characters of numbers that begins as a number. -/
def NumberText (w : List UInt8) : Prop :=
  (∃ c ∈ w.head?, isdigit c ∨ c = 0x2D) ∧ ∀ c ∈ w, c ∈ numberChars

/-- The number that digits stand for. -/
def digitsValue (digits : List UInt8) : ℕ :=
  Nat.ofDigits 10 (digits.reverse.map fun b => b.toNat - 0x30)

/-- Digits, as many as there are. -/
structure Digits (digits rest : List UInt8) : Prop where
  some_digit : digits ≠ []
  digits : digits.all isdigit
  rest : ∀ c ∈ rest.head?, isdigit c = false

/-- The integer that a text begins with. It is cut to the range of 64 bits. -/
inductive Integer : List UInt8 → ℤ → Prop
  | positive {digits rest : List UInt8} :
      Digits digits rest → Integer (digits ++ rest) (min (digitsValue digits) (2 ^ 63 - 1))
  | negative {digits rest : List UInt8} :
      Digits digits rest →
      Integer (0x2D :: (digits ++ rest)) (max (-digitsValue digits) (-2 ^ 63))

/-! ### Values -/

/-- Where a text has come to: a complete value, or behind which part of an array or of an object
that is still open. -/
inductive Place
  | value
  | arrayOpen | item | itemComma
  | objectOpen | name | colon | member | memberComma
  deriving DecidableEq, Repr

/-- The places in an array where an element can stand. -/
def BeforeItem (p : Place) : Prop := p = .arrayOpen ∨ p = .itemComma

/-- The places in an object where a name can stand. -/
def BeforeName (p : Place) : Prop := p = .objectOpen ∨ p = .memberComma

section Reads

variable (libc : Libc δ) (strict : Bool)

/-- A text that comes to a place. -/
inductive Reads : ℕ → Place → Option (List UInt8) → List UInt8 → Json δ → Prop
  | null {n : ℕ} {w : List UInt8} :
      w.map tolower = ascii "null" → Reads (n + 1) .value none w .null
  | boolean {n : ℕ} {w : List UInt8} (b : Bool) :
      w.map tolower = ascii (if b then "true" else "false") →
      Reads (n + 1) .value none w (.boolean b)
  | int {n : ℕ} {w : List UInt8} {i : ℤ} :
      NumberText w → (∀ c ∈ w, c ∉ doubleChars) → Integer w i → Reads (n + 1) .value none w (.int i)
  | double {n : ℕ} {w : List UInt8} {d : δ} :
      NumberText w → (∃ c ∈ w, c ∈ doubleChars) → libc.scanLf w = some d →
      Reads (n + 1) .value none w (.double d)
  | string {n : ℕ} {q : UInt8} {alone : Bool} {w s : List UInt8} :
      Quote q → Chars q alone w s → Reads (n + 1) .value none (q :: (w ++ [q])) (.string s)
  | openArray {n : ℕ} : Reads (n + 1) .arrayOpen none [0x5B] (.array [])
  | item {n : ℕ} {p : Place} {w g x : List UInt8} {items : List (Json δ)} {v : Json δ} :
      Reads (n + 1) p none w (.array items) → BeforeItem p → Gap g → Reads n .value none x v →
      Reads (n + 1) .item none (w ++ (g ++ x)) (.array (items ++ [v]))
  | itemComma {n : ℕ} {w g : List UInt8} {v : Json δ} :
      Reads n .item none w v → Gap g → Reads n .itemComma none (w ++ (g ++ [0x2C])) v
  | closeArray {n : ℕ} {p : Place} {w g : List UInt8} {items : List (Json δ)} :
      Reads n p none w (.array items) → (p = .itemComma → strict = false) → Gap g →
      p = .item ∨ BeforeItem p → Reads n .value none (w ++ (g ++ [0x5D])) (.array items)
  | openObject {n : ℕ} : Reads (n + 1) .objectOpen none [0x7B] (.object [])
  | name {n : ℕ} {p : Place} {q : UInt8} {alone : Bool} {w g k key : List UInt8}
      {members : List (List UInt8 × Json δ)} :
      Reads n p none w (.object members) → BeforeName p → Gap g → Quote q → Chars q alone k key →
      Reads n .name (some (text key)) (w ++ (g ++ (q :: (k ++ [q])))) (.object members)
  | colon {n : ℕ} {w g : List UInt8} {name : Option (List UInt8)} {v : Json δ} :
      Reads n .name name w v → Gap g → Reads n .colon name (w ++ (g ++ [0x3A])) v
  | member {n : ℕ} {key w g x : List UInt8} {members : List (List UInt8 × Json δ)} {v : Json δ} :
      Reads (n + 1) .colon (some key) w (.object members) → Gap g → Reads n .value none x v →
      Reads (n + 1) .member none (w ++ (g ++ x)) (.object (Members.add members key v))
  | memberComma {n : ℕ} {w g : List UInt8} {v : Json δ} :
      Reads n .member none w v → Gap g → Reads n .memberComma none (w ++ (g ++ [0x2C])) v
  | closeObject {n : ℕ} {p : Place} {w g : List UInt8} {members : List (List UInt8 × Json δ)} :
      Reads n p none w (.object members) → (p = .memberComma → strict = false) → Gap g →
      p = .member ∨ BeforeName p → Reads n .value none (w ++ (g ++ [0x7D])) (.object members)

/-- A text that leads to where a value is expected: a gap, and arrays and objects that are
open. -/
inductive Opened (maxDepth : ℕ) : ℕ → List UInt8 → Prop
  | bottom {g : List UInt8} : Gap g → Opened maxDepth maxDepth g
  | array {n : ℕ} {p : Place} {pre w g : List UInt8} {items : List (Json δ)} :
      Opened maxDepth (n + 1) pre → Reads libc strict (n + 1) p none w (.array items) →
      BeforeItem p → Gap g → Opened maxDepth n (pre ++ (w ++ g))
  | object {n : ℕ} {key pre w g : List UInt8} {members : List (List UInt8 × Json δ)} :
      Opened maxDepth (n + 1) pre →
      Reads libc strict (n + 1) .colon (some key) w (.object members) → Gap g →
      Opened maxDepth n (pre ++ (w ++ g))

/-- An integer or a double. -/
def Json.IsNumber : Json δ → Prop
  | .int _ | .double _ => True
  | _ => False

/-- What may stand behind a value and a gap: nothing, or a character that belongs to neither. -/
def Ending (v : Json δ) (gap rest : List UInt8) : Prop :=
  ∀ c ∈ rest.head?, Solid c ∧ (v.IsNumber → gap = [] → c ∉ numberChars)

/-- The texts that are accepted. Behind the value and a gap there may be anything that does not
begin with white space or a slash. A text may also end inside a comment behind a value, even if
arrays and objects are open around it. -/
inductive Accepted (maxDepth : ℕ) : List UInt8 → Json δ → Prop
  | value {g w g' rest : List UInt8} {v : Json δ} :
      Gap g → Reads libc strict maxDepth .value none w v → Gap g' → Ending v g' rest →
      Accepted maxDepth (g ++ (w ++ (g' ++ rest))) v
  | comment {n : ℕ} {p : CommentPlace} {pre w g c : List UInt8} {v : Json δ} :
      Opened libc strict maxDepth n pre → Reads libc strict n .value none w v → Gap g →
      Comment p c → p ≠ .slash → Accepted maxDepth (pre ++ (w ++ (g ++ c))) v

end Reads

end LinuxProgram.JsonC
