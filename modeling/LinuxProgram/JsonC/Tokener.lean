import LinuxProgram.Base.Iteration
import LinuxProgram.JsonC.LinkHash
import LinuxProgram.JsonC.Values

/-!
# The JSON tokener

`json_tokener_parse_ex` reads a text with a stack of levels, one for each array or object
that is open and one for the value that is being read. A round of its loop looks at one
character and either takes it, or looks at it once more in another state. Six states have
loops of their own, which take a whole stretch of characters in one round.

The text is the memory from `str` on: `len` bytes, or a string with its terminator and
what stands behind it if `len` is `-1`. The `printbuf` of the tokener is the text that it
holds, and the objects and arrays are lists. There is always memory for them. A call has no
result (`none`) if it comes to a round that C does not define: one that makes the `printbuf`
too long for its `int` sizes, or that shifts a digit by a negative count.

## Main definitions

* `Tokener`, `Parse`, `Stop` — a tokener, a call that is running, and a call that has left
  its loop
* `round`, `defined` — one round of the loop, and whether C defines it
* `jsonTokenerParseEx`, `jsonTokenerParseVerbose` — the calls
-/

namespace LinuxProgram.JsonC

open Base

/-- `enum json_tokener_state`. -/
inductive State
  | eatws | start | finish | null
  | commentStart | comment | commentEol | commentEnd
  | string | stringEscape | escapeUnicode
  | boolean | number
  | array | arrayAdd | arraySep
  | objectFieldStart | objectField | objectFieldEnd
  | objectValue | objectValueAdd | objectSep
  | arrayAfterSep | objectFieldStartAfterSep
  deriving DecidableEq, Repr

/-- `enum json_tokener_error`. -/
inductive Error
  | success | continued | depth | parseEof | parseUnexpected | parseNull | parseBoolean
  | parseNumber | parseArray | parseObjectKeyName | parseObjectKeySep | parseObjectValueSep
  | parseString | parseComment
  deriving DecidableEq, Repr

variable {δ : Type}

/-- `struct json_tokener_srec`. -/
structure Level (δ : Type) where
  state : State
  savedState : State
  current : Json δ
  objFieldName : Option (List UInt8)

/-- A level after `json_tokener_reset_level`. -/
def Level.fresh : Level δ := ⟨.eatws, .start, .null, none⟩

/-- `struct json_tokener`. The level at `depth` is `top`, the others are below it. -/
structure Tokener (δ : Type) where
  pb : List UInt8
  maxDepth : ℕ
  isDouble : Bool
  stPos : ℕ
  charOffset : ℕ
  err : Error
  ucsChar : UInt32
  quoteChar : UInt8
  top : Level δ
  below : List (Level δ)
  strict : Bool

namespace Tokener

/-- `tok->depth`. -/
def depth (tok : Tokener δ) : ℕ := tok.below.length

/-- `state = s`. -/
def enter (tok : Tokener δ) (s : State) : Tokener δ :=
  { tok with top := { tok.top with state := s } }

/-- `saved_state = s; state = json_tokener_state_eatws`. -/
def skipTo (tok : Tokener δ) (s : State) : Tokener δ :=
  { tok with top := { tok.top with state := .eatws, savedState := s } }

/-- `current = v`. -/
def put (tok : Tokener δ) (v : Json δ) : Tokener δ :=
  { tok with top := { tok.top with current := v } }

/-- `printbuf_memappend_fast(tok->pb, …)`, of a text that stays short enough (see `defined`). -/
def append (tok : Tokener δ) (bytes : List UInt8) : Tokener δ := { tok with pb := tok.pb ++ bytes }

/-- `tok->depth++; json_tokener_reset_level(tok, tok->depth)`. -/
def push (tok : Tokener δ) : Tokener δ := { tok with top := .fresh, below := tok.top :: tok.below }

end Tokener

/-- `json_tokener_new_ex`, and `json_tokener_set_flags` with or without `JSON_TOKENER_STRICT`. -/
def jsonTokenerNewEx (depth : ℕ) (strict : Bool) : Tokener δ :=
  { pb := [], maxDepth := depth, isDouble := false, stPos := 0, charOffset := 0, err := .success,
    ucsChar := 0, quoteChar := 0, top := .fresh, below := [], strict }

/-- `json_tokener_reset`. -/
def jsonTokenerReset (tok : Tokener δ) : Tokener δ :=
  { tok with top := .fresh, below := [], err := .success }

/-! ### Rounds -/

/-- A call that is running: the tokener, the local `obj`, and the text from `str` on. -/
structure Parse (δ : Type) where
  tok : Tokener δ
  obj : Json δ
  str : List UInt8

/-- A call at `out`: the tokener, the text from `str` on, and whether `c` is zero. -/
structure Stop (δ : Type) where
  tok : Tokener δ
  str : List UInt8
  eof : Bool

/-- What a round leads to. -/
abbrev Round (δ : Type) := Parse δ ⊕ Stop δ

/-- `goto redo_char`. -/
def redoChar (tok : Tokener δ) (obj : Json δ) (c : UInt8) (rest : List UInt8) : Round δ :=
  .inl ⟨tok, obj, c :: rest⟩

/-- `break`: `ADVANCE_CHAR` moves on unless the character is zero. -/
def advance (tok : Tokener δ) (obj : Json δ) (c : UInt8) (rest : List UInt8) : Round δ :=
  if c = 0 then .inr ⟨tok, rest, true⟩ else .inl ⟨tok, obj, rest⟩

/-- `goto out` at a character. -/
def leave (tok : Tokener δ) (c : UInt8) (rest : List UInt8) : Round δ :=
  .inr ⟨tok, c :: rest, c = 0⟩

/-- `tok->err = e; goto out`. -/
def fail (tok : Tokener δ) (e : Error) (c : UInt8) (rest : List UInt8) : Round δ :=
  leave { tok with err := e } c rest

/-- `PEEK_CHAR` finds the end of the text. -/
def starve (tok : Tokener δ) : Stop δ :=
  ⟨{ tok with err :=
      if tok.depth = 0 ∧ tok.top.state = .eatws ∧ tok.top.savedState = .finish then .success
      else .continued }, [], false⟩

/-! ### The loops inside a round -/

/-- What a loop over characters comes to. -/
inductive Scan
  /-- A character that ends the loop. -/
  | found (taken : List UInt8) (c : UInt8) (rest : List UInt8)
  /-- A zero, which `ADVANCE_CHAR` returns. -/
  | zero (taken rest : List UInt8)
  /-- The end of the text. -/
  | last (taken : List UInt8)

/-- One more character has been taken. -/
def Scan.cons (c : UInt8) : Scan → Scan
  | .found taken c' rest => .found (c :: taken) c' rest
  | .zero taken rest => .zero (c :: taken) rest
  | .last taken => .last (c :: taken)

/-- `while (cond(c)) if (!ADVANCE_CHAR(str, tok) || !PEEK_CHAR(c, tok)) …`. -/
def scan (cond : UInt8 → Bool) : UInt8 → List UInt8 → Scan
  | c, [] => if cond c then (if c = 0 then .zero [c] [] else .last [c]) else .found [] c []
  | c, c' :: rest =>
    if cond c then (if c = 0 then .zero [c] (c' :: rest) else (scan cond c' rest).cons c)
    else .found [] c (c' :: rest)

/-- How a state goes through the characters that it takes: the condition of its loop, what
becomes of the tokener with the characters it has taken, and what is done with the first other
one. -/
abbrev Loop (δ : Type) :=
  (cond : UInt8 → Bool) → (gather : Tokener δ → List UInt8 → Tokener δ) →
    (found : Tokener δ → Json δ → UInt8 → List UInt8 → Round δ) →
    Tokener δ → Json δ → UInt8 → List UInt8 → Round δ

/-- All of them in one round. -/
def tightLoop : Loop δ := fun cond gather found tok obj c rest =>
  match scan cond c rest with
  | .found taken c rest => found (gather tok taken) obj c rest
  | .zero taken rest => .inr ⟨gather tok taken, rest, true⟩
  | .last taken => .inr (starve (gather tok taken))

/-! ### Escapes -/

/-- `IS_HIGH_SURROGATE`. -/
def isHighSurrogate (uc : UInt32) : Bool := uc &&& 0xFC00 = 0xD800

/-- `IS_LOW_SURROGATE`. -/
def isLowSurrogate (uc : UInt32) : Bool := uc &&& 0xFC00 = 0xDC00

/-- `DECODE_SURROGATE_PAIR`. -/
def decodeSurrogatePair (hi lo : UInt32) : UInt32 :=
  ((hi &&& 0x3FF) <<< 10) + (lo &&& 0x3FF) + 0x10000

/-- `utf8_replacement_char`. -/
def utf8ReplacementChar : List UInt8 := [0xEF, 0xBF, 0xBD]

/-- What is appended for a code point that is no high surrogate. -/
def unescapedUtf (uc : UInt32) : List UInt8 :=
  if uc < 0x80 then [uc.toUInt8]
  else if uc < 0x800 then [((uc >>> 6) ||| 0xC0).toUInt8, ((uc &&& 0x3F) ||| 0x80).toUInt8]
  else if isLowSurrogate uc then utf8ReplacementChar
  else if uc < 0x10000 then
    [((uc >>> 12) ||| 0xE0).toUInt8, (((uc >>> 6) &&& 0x3F) ||| 0x80).toUInt8,
      ((uc &&& 0x3F) ||| 0x80).toUInt8]
  else if uc < 0x110000 then
    [(((uc >>> 18) &&& 0x07) ||| 0xF0).toUInt8, (((uc >>> 12) &&& 0x3F) ||| 0x80).toUInt8,
      (((uc >>> 6) &&& 0x3F) ||| 0x80).toUInt8, ((uc &&& 0x3F) ||| 0x80).toUInt8]
  else utf8ReplacementChar

/-- `strchr(json_hex_chars, c)`, which also finds the terminator. -/
def isHexChar (c : UInt8) : Bool := c ∈ jsonHexChars || c = 0

/-- `hexdigit`. -/
def hexdigit (c : UInt8) : UInt32 :=
  if c ≤ 0x39 then c.toUInt32 - 0x30 else (c.toUInt32 &&& 7) + 9

/-- One more digit of a `\u` escape. The shift is by `3 - st_pos` digits, which is no negative
count in a round that is `defined`. -/
def Tokener.digit (tok : Tokener δ) (c : UInt8) : Tokener δ :=
  { tok with
    ucsChar := tok.ucsChar + (hexdigit c <<< UInt32.ofNat ((3 - tok.stPos) * 4))
    stPos := tok.stPos + 1 }

/-- The four digits behind a high surrogate: the second half of the pair, or the surrogate is
replaced. -/
def Tokener.combine (tok : Tokener δ) (hi : UInt32) : Tokener δ :=
  if hi = 0 then tok
  else if isLowSurrogate tok.ucsChar then
    { tok with ucsChar := decodeSurrogatePair hi tok.ucsChar }
  else tok.append utf8ReplacementChar

/-- What is done about a high surrogate when the text ends before its other half. -/
def Tokener.abandon (tok : Tokener δ) (hi : UInt32) : Tokener δ :=
  if hi = 0 then tok else tok.append utf8ReplacementChar

/-- The loop of `json_tokener_state_escape_unicode`, with `got_hi_surrogate`. -/
def unicodeLoop (tok : Tokener δ) (obj : Json δ) (gotHiSurrogate : UInt32) :
    List UInt8 → Round δ
  | [] => .inr (starve tok)
  | c :: rest =>
    if isHexChar c then
      let tok := tok.digit c
      if tok.stPos = 4 then
        let tok := tok.combine gotHiSurrogate
        if isHighSurrogate tok.ucsChar then
          match rest with
          | b :: u :: more =>
            if b = 0x5C ∧ u = 0x75 then
              -- Three times `ADVANCE_CHAR`; at a zero the first of them is the last.
              if c = 0 then
                .inr ⟨(tok.append utf8ReplacementChar).append utf8ReplacementChar, u :: more, true⟩
              else
                match more with
                | [] => .inr (starve (tok.append utf8ReplacementChar))
                | _ :: _ =>
                  unicodeLoop { tok with ucsChar := 0, stPos := 0 } obj tok.ucsChar more
            else advance ((tok.append utf8ReplacementChar).enter tok.top.savedState) obj c rest
          | _ => advance ((tok.append utf8ReplacementChar).enter tok.top.savedState) obj c rest
        else advance ((tok.append (unescapedUtf tok.ucsChar)).enter tok.top.savedState) obj c rest
      else if c = 0 then .inr ⟨tok.abandon gotHiSurrogate, rest, true⟩
      else
        match rest with
        | [] => .inr (starve (tok.abandon gotHiSurrogate))
        | _ :: _ => unicodeLoop tok obj gotHiSurrogate rest
    else fail tok .parseString c rest

/-- What the character behind a backslash stands for, unless it is `u`. -/
def simpleEscape (c : UInt8) : Option UInt8 :=
  if c = 0x22 ∨ c = 0x5C ∨ c = 0x2F then some c
  else if c = 0x62 then some 0x08
  else if c = 0x6E then some 0x0A
  else if c = 0x72 then some 0x0D
  else if c = 0x74 then some 0x09
  else if c = 0x66 then some 0x0C
  else none

/-! ### Numbers -/

/-- `json_number_chars`. -/
def jsonNumberChars : List UInt8 := ascii "0123456789.+-eE"

/-- `sscanf(buf, "%" SCNd64, &num64)`: the number, and whether `errno` is `ERANGE`. -/
def scanD64 (buf : List UInt8) : Option (ℤ × Bool) :=
  let buf := buf.dropWhile isspace
  let digits :=
    (if buf.headD 0 = 0x2D ∨ buf.headD 0 = 0x2B then buf.tail else buf).takeWhile isdigit
  let size := Nat.ofDigits 10 (digits.reverse.map fun b => b.toNat - 0x30)
  let n : ℤ := if buf.headD 0 = 0x2D then -size else size
  if digits = [] then none
  else if n < -2 ^ 63 then some (-2 ^ 63, true)
  else if 2 ^ 63 ≤ n then some (2 ^ 63 - 1, true)
  else some (n, false)

/-- `json_parse_int64`, with a `sscanf` that sets `errno`. -/
def jsonParseInt64 (buf : List UInt8) : Option ℤ :=
  let buf := buf.dropWhile isspace
  (scanD64 buf).map fun (num64, erange) =>
    if erange then (if buf.headD 0 = 0x2D then -2 ^ 63 else 2 ^ 63 - 1) else num64

/-- `c == '.' || c == 'e' || c == 'E'`. -/
def isDoubleChar (c : UInt8) : Bool := c = 0x2E || c = 0x65 || c = 0x45

/-- The value of the characters of a number. -/
def numberValue (libc : Libc δ) (isDouble : Bool) (buf : List UInt8) : Option (Json δ) :=
  if isDouble then (libc.scanLf buf).map .double else (jsonParseInt64 buf).map .int

/-! ### The states -/

section States

variable (libc : Libc δ) (loop : Loop δ)

def eatwsState : Tokener δ → Json δ → UInt8 → List UInt8 → Round δ :=
  loop isspace (fun tok _ => tok) fun tok obj c rest =>
    if c = 0x2F then advance { tok.enter .commentStart with pb := [c] } obj c rest
    else redoChar (tok.enter tok.top.savedState) obj c rest

def startState (tok : Tokener δ) (obj : Json δ) (c : UInt8) (rest : List UInt8) : Round δ :=
  if c = 0x7B then advance ((tok.skipTo .objectFieldStart).put (.object [])) obj c rest
  else if c = 0x5B then advance ((tok.skipTo .array).put (.array [])) obj c rest
  else if c = 0x4E ∨ c = 0x6E then redoChar { tok.enter .null with pb := [], stPos := 0 } obj c rest
  else if c = 0x22 ∨ c = 0x27 then
    advance { tok.enter .string with pb := [], quoteChar := c } obj c rest
  else if c = 0x54 ∨ c = 0x74 ∨ c = 0x46 ∨ c = 0x66 then
    redoChar { tok.enter .boolean with pb := [], stPos := 0 } obj c rest
  else if isdigit c ∨ c = 0x2D then
    redoChar { tok.enter .number with pb := [], isDouble := false } obj c rest
  else fail tok .parseUnexpected c rest

def finishState (tok : Tokener δ) (c : UInt8) (rest : List UInt8) : Round δ :=
  match tok.below with
  | [] => leave tok c rest
  | level :: below => redoChar { tok with top := level, below } tok.top.current c rest

/-- The word is known when the character behind it is looked at. -/
def nullState (tok : Tokener δ) (obj : Json δ) (c : UInt8) (rest : List UInt8) : Round δ :=
  let tok := tok.append [c]
  if strncasecmp (ascii "null") tok.pb (min (tok.stPos + 1) 4) = 0 then
    if tok.stPos = 4 then redoChar ((tok.put .null).skipTo .finish) obj c rest
    else advance { tok with stPos := tok.stPos + 1 } obj c rest
  else fail tok .parseNull c rest

def commentStartState (tok : Tokener δ) (obj : Json δ) (c : UInt8) (rest : List UInt8) :
    Round δ :=
  if c = 0x2A then advance ((tok.enter .comment).append [c]) obj c rest
  else if c = 0x2F then advance ((tok.enter .commentEol).append [c]) obj c rest
  else fail tok .parseComment c rest

def commentState : Tokener δ → Json δ → UInt8 → List UInt8 → Round δ :=
  loop (fun c => c ≠ 0x2A) Tokener.append fun tok obj c rest =>
    advance ((tok.append [c]).enter .commentEnd) obj c rest

def commentEolState : Tokener δ → Json δ → UInt8 → List UInt8 → Round δ :=
  loop (fun c => c ≠ 0x0A) Tokener.append fun tok obj c rest =>
    advance (tok.enter .eatws) obj c rest

def commentEndState (tok : Tokener δ) (obj : Json δ) (c : UInt8) (rest : List UInt8) : Round δ :=
  advance ((tok.append [c]).enter (if c = 0x2F then .eatws else .comment)) obj c rest

def stringState (tok : Tokener δ) : Json δ → UInt8 → List UInt8 → Round δ :=
  loop (fun c => c ≠ tok.quoteChar && c ≠ 0x5C) Tokener.append (fun tok obj c rest =>
    if c = tok.quoteChar then advance ((tok.put (.string tok.pb)).skipTo .finish) obj c rest
    else advance ((tok.skipTo .string).enter .stringEscape) obj c rest) tok

def stringEscapeState (tok : Tokener δ) (obj : Json δ) (c : UInt8) (rest : List UInt8) :
    Round δ :=
  match simpleEscape c with
  | some b => advance ((tok.append [b]).enter tok.top.savedState) obj c rest
  | none =>
    if c = 0x75 then advance { tok.enter .escapeUnicode with ucsChar := 0, stPos := 0 } obj c rest
    else fail tok .parseString c rest

def escapeUnicodeState (tok : Tokener δ) (obj : Json δ) (c : UInt8) (rest : List UInt8) :
    Round δ :=
  unicodeLoop tok obj 0 (c :: rest)

def booleanState (tok : Tokener δ) (obj : Json δ) (c : UInt8) (rest : List UInt8) : Round δ :=
  let tok := tok.append [c]
  if strncasecmp (ascii "true") tok.pb (min (tok.stPos + 1) 4) = 0 then
    if tok.stPos = 4 then redoChar ((tok.put (.boolean true)).skipTo .finish) obj c rest
    else advance { tok with stPos := tok.stPos + 1 } obj c rest
  else if strncasecmp (ascii "false") tok.pb (min (tok.stPos + 1) 5) = 0 then
    if tok.stPos = 5 then redoChar ((tok.put (.boolean false)).skipTo .finish) obj c rest
    else advance { tok with stPos := tok.stPos + 1 } obj c rest
  else fail tok .parseBoolean c rest

def numberState : Tokener δ → Json δ → UInt8 → List UInt8 → Round δ :=
  loop (fun c => c ≠ 0 && c ∈ jsonNumberChars)
    (fun tok taken =>
      { tok.append taken with isDouble := tok.isDouble || taken.any isDoubleChar })
    fun tok obj c rest =>
      match numberValue libc tok.isDouble (text tok.pb) with
      | some v => redoChar ((tok.put v).skipTo .finish) obj c rest
      | none => fail tok .parseNumber c rest

/-- A level for an element or a member's value, if there is room for it. -/
def pushState (add : State) (tok : Tokener δ) (obj : Json δ) (c : UInt8) (rest : List UInt8) :
    Round δ :=
  if tok.maxDepth - 1 ≤ tok.depth then fail tok .depth c rest
  else redoChar (tok.enter add).push obj c rest

/-- `json_tokener_state_array` and `json_tokener_state_array_after_sep`. -/
def arrayState (tok : Tokener δ) (obj : Json δ) (c : UInt8) (rest : List UInt8) : Round δ :=
  if c = 0x5D then
    if tok.top.state = .arrayAfterSep ∧ tok.strict then fail tok .parseUnexpected c rest
    else advance (tok.skipTo .finish) obj c rest
  else pushState .arrayAdd tok obj c rest

/-- `json_object_array_add`. -/
def jsonObjectArrayAdd : Json δ → Json δ → Json δ
  | .array items, v => .array (items ++ [v])
  | other, _ => other

def arrayAddState (tok : Tokener δ) (obj : Json δ) (c : UInt8) (rest : List UInt8) : Round δ :=
  redoChar ((tok.put (jsonObjectArrayAdd tok.top.current obj)).skipTo .arraySep) obj c rest

def arraySepState (tok : Tokener δ) (obj : Json δ) (c : UInt8) (rest : List UInt8) : Round δ :=
  if c = 0x5D then advance (tok.skipTo .finish) obj c rest
  else if c = 0x2C then advance (tok.skipTo .arrayAfterSep) obj c rest
  else fail tok .parseArray c rest

/-- `json_tokener_state_object_field_start` and `…_after_sep`. -/
def objectFieldStartState (tok : Tokener δ) (obj : Json δ) (c : UInt8) (rest : List UInt8) :
    Round δ :=
  if c = 0x7D then
    if tok.top.state = .objectFieldStartAfterSep ∧ tok.strict then
      fail tok .parseUnexpected c rest
    else advance (tok.skipTo .finish) obj c rest
  else if c = 0x22 ∨ c = 0x27 then
    advance { tok.enter .objectField with quoteChar := c, pb := [] } obj c rest
  else fail tok .parseObjectKeyName c rest

def objectFieldState (tok : Tokener δ) : Json δ → UInt8 → List UInt8 → Round δ :=
  loop (fun c => c ≠ tok.quoteChar && c ≠ 0x5C) Tokener.append (fun tok obj c rest =>
    if c = tok.quoteChar then
      advance { tok with top :=
        { tok.top with
          objFieldName := some (text tok.pb), savedState := .objectFieldEnd, state := .eatws } }
        obj c rest
    else advance ((tok.skipTo .objectField).enter .stringEscape) obj c rest) tok

def objectFieldEndState (tok : Tokener δ) (obj : Json δ) (c : UInt8) (rest : List UInt8) :
    Round δ :=
  if c = 0x3A then advance (tok.skipTo .objectValue) obj c rest
  else fail tok .parseObjectKeySep c rest

/-- `json_object_object_add`. -/
def objectAdd : Json δ → Option (List UInt8) → Json δ → Json δ
  | .object members, some key, v => .object (Members.add members key v)
  | other, _, _ => other

def objectValueAddState (tok : Tokener δ) (obj : Json δ) (c : UInt8) (rest : List UInt8) :
    Round δ :=
  redoChar { tok with top :=
    { tok.top with
      current := objectAdd tok.top.current tok.top.objFieldName obj, objFieldName := none,
      savedState := .objectSep, state := .eatws } } obj c rest

def objectSepState (tok : Tokener δ) (obj : Json δ) (c : UInt8) (rest : List UInt8) : Round δ :=
  if c = 0x7D then advance (tok.skipTo .finish) obj c rest
  else if c = 0x2C then advance (tok.skipTo .objectFieldStartAfterSep) obj c rest
  else fail tok .parseObjectValueSep c rest

/-- `switch(state)`. -/
def switch (tok : Tokener δ) : Json δ → UInt8 → List UInt8 → Round δ :=
  match tok.top.state with
  | .eatws => eatwsState loop tok
  | .start => startState tok
  | .finish => fun _ => finishState tok
  | .null => nullState tok
  | .commentStart => commentStartState tok
  | .comment => commentState loop tok
  | .commentEol => commentEolState loop tok
  | .commentEnd => commentEndState tok
  | .string => stringState loop tok
  | .stringEscape => stringEscapeState tok
  | .escapeUnicode => escapeUnicodeState tok
  | .boolean => booleanState tok
  | .number => numberState libc loop tok
  | .arrayAfterSep | .array => arrayState tok
  | .arrayAdd => arrayAddState tok
  | .arraySep => arraySepState tok
  | .objectFieldStart | .objectFieldStartAfterSep => objectFieldStartState tok
  | .objectField => objectFieldState loop tok
  | .objectFieldEnd => objectFieldEndState tok
  | .objectValue => pushState .objectValueAdd tok
  | .objectValueAdd => objectValueAddState tok
  | .objectSep => objectSepState tok

/-- From `PEEK_CHAR` or `redo_char` to the next of them. -/
def roundBy (p : Parse δ) : Round δ :=
  match p.str with
  | [] => .inr (starve p.tok)
  | c :: rest => switch libc loop p.tok p.obj c rest

/-- A round as in the source. -/
def round : Parse δ → Round δ := roundBy libc tightLoop

end States

/-! ### The calls -/

/-- The error at `out`: a zero ends the text too early, unless a value is finished. -/
def Stop.error (s : Stop δ) : Error :=
  if s.eof ∧ s.tok.top.state ≠ .finish ∧ s.tok.top.savedState ≠ .finish then .parseEof
  else s.tok.err

/-- What stands behind `out`: the result and the tokener. -/
def out (input : List UInt8) (s : Stop δ) : Json δ × Tokener δ :=
  let tok := { s.tok with charOffset := input.length - s.str.length, err := s.error }
  if s.error = .success then
    (tok.top.current, { tok with top := .fresh, below := tok.below.map fun _ => .fresh })
  else (.null, tok)

/-- The call before its first round. -/
def begin (tok : Tokener δ) (str : List UInt8) : Parse δ :=
  ⟨{ tok with err := .success }, .null, str⟩

/-- The next character is taken for a digit of an escape that has its four digits. This happens
where a text has been cut behind the `\u` of the second half of a surrogate pair. -/
def Parse.shiftsBack (p : Parse δ) : Bool :=
  p.tok.top.state = .escapeUnicode && 4 ≤ p.tok.stPos && p.str.head?.any isHexChar

/-- The `printbuf` has `2 ^ 30` bytes or more. -/
def Round.overlong : Round δ → Bool
  | .inl p => 2 ^ 30 ≤ p.tok.pb.length
  | .inr s => 2 ^ 30 ≤ s.tok.pb.length

/-- C defines a round with its outcome: no digit is shifted by a negative count, and the sizes of
the `printbuf` are of type `int`. -/
def defined (p : Parse δ) (r : Round δ) : Bool := !p.shiftsBack && !r.overlong

/-- `json_tokener_parse_ex`. A character is looked at in at most ten states. -/
def jsonTokenerParseEx (libc : Libc δ) (tok : Tokener δ) (str : List UInt8) :
    Option (Json δ × Tokener δ) := do
  let s ← (iterate (checked defined (round libc)) (10 * (str.length + tok.depth + 1))
    (begin tok str)).join
  -- `tok->char_offset` is an `int` as well.
  let _ ← asInt (str.length - s.str.length)
  some (out str s)

/-- `json_tokener_parse_verbose`: the result and the error. -/
def jsonTokenerParseVerbose (libc : Libc δ) (str : List UInt8) : Option (Json δ × Error) :=
  (jsonTokenerParseEx libc (jsonTokenerNewEx 32 false) str).map fun (obj, tok) =>
    (if tok.err = .success then obj else .null, tok.err)

end LinuxProgram.JsonC
