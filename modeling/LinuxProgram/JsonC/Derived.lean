import LinuxProgram.JsonC.Escapes

/-!
# What the grammar derives is accepted

Each rule of the grammar is read by rounds of the plain tokener: gaps, strings, numbers and
words first, and then values, by induction over their derivation. A text that a rule has
come to with is followed by a gap and a character that belongs to neither.

## Main definitions

* `Place.state`, `CommentPlace.state` — the states of the tokener for the places of the grammar

## Main results

* `numberValue_eq_some_iff` — numbers have the values that the grammar says
* `Reads.comes` — a derivation is read
* `Accepted.parses` — an accepted text is parsed successfully, to its value
-/

namespace LinuxProgram.JsonC

open Base

variable {δ : Type} {libc : Libc δ}

/-- The state that reads on in a comment. -/
@[simp]
def CommentPlace.state : CommentPlace → State
  | .slash => .commentStart
  | .block => .comment
  | .star => .commentEnd
  | .line => .commentEol

/-- The state that reads on at a place. -/
@[simp]
def Place.state : Place → State
  | .value => .finish
  | .arrayOpen => .array
  | .item => .arraySep
  | .itemComma => .arrayAfterSep
  | .objectOpen => .objectFieldStart
  | .name => .objectFieldEnd
  | .colon => .objectValue
  | .member => .objectSep
  | .memberComma => .objectFieldStartAfterSep

/-- Reading a text brings the top level into a state; the levels below stay. -/
def Comes (libc : Libc δ) (tok : Tokener δ) (w : List UInt8) (level : Level δ)
    (rest : List UInt8) : Prop :=
  ∀ obj, ∃ tok' obj', Leads (plainRound libc) ⟨tok, obj, w ++ rest⟩ ⟨tok', obj', rest⟩ ∧
    Frame tok tok' ∧ tok'.top = level

section Comes

variable {tok tok' : Tokener δ} {w w' rest : List UInt8} {level level' : Level δ} {c : UInt8}

theorem Comes.refl (tok : Tokener δ) (rest : List UInt8) : Comes libc tok [] tok.top rest :=
  fun obj => ⟨tok, obj, .refl, .refl tok, rfl⟩

theorem Comes.trans (first : Comes libc tok w level (w' ++ rest))
    (second : ∀ tok', Frame tok tok' → tok'.top = level → Comes libc tok' w' level' rest) :
    Comes libc tok (w ++ w') level' rest := by
  intro obj
  obtain ⟨tok', obj', leads, frame, top⟩ := first obj
  obtain ⟨tok'', obj'', leads', frame', top'⟩ := second tok' frame top obj'
  refine ⟨tok'', obj'', ?_, frame.trans frame', top'⟩
  rw [List.append_assoc]
  exact leads.trans leads'

/-- A round that takes a character. -/
theorem Comes.cons
    (round : ∀ obj, plainRound libc ⟨tok, obj, c :: (w ++ rest)⟩ = advance tok' obj c (w ++ rest))
    (nonzero : c ≠ 0) (frame : Frame tok tok') (later : Comes libc tok' w level rest) :
    Comes libc tok (c :: w) level rest := by
  intro obj
  obtain ⟨tok'', obj', leads, frame', top⟩ := later obj
  refine ⟨tok'', obj', .head ?_ leads, frame.trans frame', top⟩
  rw [Goes, List.cons_append, round, advance, if_neg nonzero]

theorem Comes.of_advance
    (round : ∀ obj, plainRound libc ⟨tok, obj, c :: rest⟩ = advance tok' obj c rest)
    (nonzero : c ≠ 0) (frame : Frame tok tok') : Comes libc tok [c] tok'.top rest :=
  .cons round nonzero frame (.refl tok' rest)

/-- A round that leaves its character to another state. -/
theorem Comes.of_redo
    (round : ∀ obj, plainRound libc ⟨tok, obj, w ++ rest⟩ = .inl ⟨tok', obj, w ++ rest⟩)
    (frame : Frame tok tok') (later : Comes libc tok' w level rest) :
    Comes libc tok w level rest := by
  intro obj
  obtain ⟨tok'', obj', leads, frame', top⟩ := later obj
  exact ⟨tok'', obj', .head (round obj) leads, frame.trans frame', top⟩

end Comes

/-! ### Gaps -/

section Gaps

variable {tok : Tokener δ}

theorem slash_comes (eatws : tok.top.state = .eatws) (rest : List UInt8) :
    Comes libc tok [0x2F] { tok.top with state := .commentStart } rest := by
  have round (obj : Json δ) : plainRound libc ⟨tok, obj, 0x2F :: rest⟩ =
      advance { tok.enter .commentStart with pb := [0x2F] } obj 0x2F rest := by
    rw [plainRound_cons, switch_eatws _ _ _ eatws, if_neg (by decide), if_pos rfl]
  exact Comes.of_advance round (by decide) ⟨rfl, rfl, rfl, rfl⟩

/-- One more character of a comment. -/
theorem comment_comes {s s' : State} {c : UInt8} {rest : List UInt8} {tok' : Tokener δ}
    (bytes : List UInt8) (top : tok'.top = { tok.top with state := s }) (nonzero : c ≠ 0)
    (round : ∀ obj, switch libc plainLoop tok' obj c rest =
      advance ((tok'.append bytes).enter s') obj c rest) :
    Comes libc tok' [c] { tok.top with state := s' } rest := by
  have comes : Comes libc tok' [c] ((tok'.append bytes).enter s').top rest :=
    Comes.of_advance round nonzero ⟨rfl, rfl, rfl, rfl⟩
  rwa [Tokener.enter, Tokener.append, top] at comes

/-- A comment is read to where it has come to; what waits behind it stays. -/
theorem Comment.comes {p : CommentPlace} {w : List UInt8} (comment : Comment p w)
    (eatws : tok.top.state = .eatws) (rest : List UInt8) :
    Comes libc tok w { tok.top with state := p.state } rest := by
  induction comment generalizing rest with
  | slash => exact slash_comes eatws rest
  | block =>
    refine (slash_comes eatws ([0x2A] ++ rest)).trans fun tok' _ top => ?_
    refine comment_comes [0x2A] top (by decide) fun obj => ?_
    rw [switch, top]
    exact if_pos rfl
  | line =>
    refine (slash_comes eatws ([0x2F] ++ rest)).trans fun tok' _ top => ?_
    refine comment_comes [0x2F] top (by decide) fun obj => ?_
    rw [switch, top]
    exact if_neg (by decide)
  | @inBlock w c _ no_star nonzero ih =>
    refine (ih ([c] ++ rest)).trans fun tok' _ top => ?_
    refine comment_comes [c] top nonzero fun obj => ?_
    have is_state : tok'.top.state = CommentPlace.block.state := by rw [top]
    rw [switch_comment _ _ _ is_state, if_pos no_star, Tokener.enter, Tokener.top_append,
      ← is_state]
    rfl
  | star _ ih =>
    refine (ih ([0x2A] ++ rest)).trans fun tok' _ top => ?_
    refine comment_comes [0x2A] top (by decide) fun obj => ?_
    have is_state : tok'.top.state = CommentPlace.block.state := by rw [top]
    rw [switch_comment _ _ _ is_state, if_neg (by decide)]
    rfl
  | @again w c _ no_slash nonzero ih =>
    -- Back inside, also behind a second star.
    refine (ih ([c] ++ rest)).trans fun tok' _ top => ?_
    refine comment_comes [c] top nonzero fun obj => ?_
    rw [switch, top]
    simp only [CommentPlace.state, commentEndState, if_neg no_slash]
  | @inLine w c _ no_newline nonzero ih =>
    refine (ih ([c] ++ rest)).trans fun tok' _ top => ?_
    refine comment_comes [c] top nonzero fun obj => ?_
    have is_state : tok'.top.state = CommentPlace.line.state := by rw [top]
    rw [switch_commentEol _ _ _ is_state, if_pos no_newline, Tokener.enter, Tokener.top_append,
      ← is_state]
    rfl

theorem isspace_ne_zero {c : UInt8} (space : isspace c) : c ≠ 0 := by
  rintro rfl
  cases space

/-- A gap is read without a trace. -/
theorem Gap.comes {g : List UInt8} (gap : Gap g) (eatws : tok.top.state = .eatws)
    (rest : List UInt8) : Comes libc tok g tok.top rest := by
  have closed {tok' : Tokener δ} (top : tok'.top = tok.top) : tok'.top.state = .eatws := by
    rw [top, eatws]
  -- A comment that is over leaves the level as it was.
  have back : { tok.top with state := .eatws } = tok.top := by rw [← eatws]
  induction gap generalizing rest with
  | nil => exact .refl tok rest
  | @space g c _ space ih =>
    refine (ih ([c] ++ rest)).trans fun tok' _ top => ?_
    rw [← top]
    refine Comes.of_advance (fun obj => ?_) (isspace_ne_zero space) (.refl tok')
    rw [plainRound_cons, switch_eatws _ _ _ (closed top), if_pos space]
  | @block g w _ comment ih =>
    refine (ih (w ++ [0x2F] ++ rest)).trans fun tok' _ top => ?_
    rw [← top]
    refine (comment.comes (closed top) ([0x2F] ++ rest)).trans fun tok'' _ top' => ?_
    rw [top, ← back, ← top]
    refine comment_comes [0x2F] top' (by decide) fun obj => ?_
    rw [switch, top']
    rfl
  | @line g w _ comment ih =>
    refine (ih (w ++ [0x0A] ++ rest)).trans fun tok' _ top => ?_
    rw [← top]
    refine (comment.comes (closed top) ([0x0A] ++ rest)).trans fun tok'' _ top' => ?_
    rw [top, ← back, ← top]
    refine comment_comes [] top' (by decide) fun obj => ?_
    have is_state : tok''.top.state = CommentPlace.line.state := by rw [top']
    rw [switch_commentEol _ _ _ is_state, if_neg (by decide)]
    simp [Tokener.append]

end Gaps

/-! ### Strings -/

/-- Inside quotation marks, bytes have been gathered. -/
structure Gathered (s : State) (tok tok' : Tokener δ) (bytes : List UInt8) : Prop
    extends Frame tok tok' where
  state : tok'.top.state = s
  current : tok'.top.current = tok.top.current
  objFieldName : tok'.top.objFieldName = tok.top.objFieldName
  pb : tok'.pb = tok.pb ++ bytes
  quoteChar : tok'.quoteChar = tok.quoteChar

theorem Gathered.trans {s : State} {tok tok' tok'' : Tokener δ} {a b : List UInt8}
    (first : Gathered s tok tok' a) (second : Gathered s tok' tok'' b) :
    Gathered s tok tok'' (a ++ b) where
  toFrame := first.toFrame.trans second.toFrame
  state := second.state
  current := second.current.trans first.current
  objFieldName := second.objFieldName.trans first.objFieldName
  pb := by rw [second.pb, first.pb, List.append_assoc]
  quoteChar := second.quoteChar.trans first.quoteChar

section Strings

variable {tok : Tokener δ} {s : State} {rest : List UInt8}

theorem simpleEscape_iff {e b : UInt8} : simpleEscape e = some b ↔ (e, b) ∈ letterEscapes := by
  unfold simpleEscape
  constructor
  · intro escape
    split_ifs at escape with same
    · obtain rfl | rfl | rfl := same <;> cases escape <;> decide
    all_goals
      cases escape
      subst e
      decide
  · simp only [letterEscapes, List.mem_cons, Prod.mk.injEq, List.not_mem_nil, or_false]
    rintro (⟨rfl, rfl⟩ | ⟨rfl, rfl⟩ | ⟨rfl, rfl⟩ | ⟨rfl, rfl⟩ | ⟨rfl, rfl⟩ | ⟨rfl, rfl⟩ |
      ⟨rfl, rfl⟩ | ⟨rfl, rfl⟩) <;> rfl

theorem simpleEscape_ne {e b : UInt8} (escape : simpleEscape e = some b) : e ≠ 0 ∧ e ≠ 0x75 := by
  constructor
  · rintro rfl
    cases escape
  · rintro rfl
    cases escape

/-- A backslash inside quotation marks. -/
theorem backslash_goes (quoted : Quoted s) (is_state : tok.top.state = s)
    (inside : 0x5C ≠ tok.quoteChar) (obj : Json δ) (rest : List UInt8) :
    Goes (plainRound libc) ⟨tok, obj, 0x5C :: rest⟩
      ⟨(tok.skipTo s).enter .stringEscape, obj, rest⟩ := by
  rw [Goes, plainRound_cons, switch_quoted _ _ _ quoted is_state inside, if_neg (by decide),
    advance, if_neg (by decide)]

theorem plain_gathers (quoted : Quoted s) (is_state : tok.top.state = s) {c : UInt8}
    (inside : c ≠ tok.quoteChar) (no_escape : c ≠ 0x5C) (nonzero : c ≠ 0) (obj : Json δ) :
    ∃ tok', Leads (plainRound libc) ⟨tok, obj, c :: rest⟩ ⟨tok', obj, rest⟩ ∧
      Gathered s tok tok' [c] := by
  refine ⟨tok.append [c], .single ?_, ⟨⟨rfl, rfl, rfl, rfl⟩, is_state, rfl, rfl, rfl, rfl⟩⟩
  rw [Goes, plainRound_cons, switch_quoted _ _ _ quoted is_state inside, if_pos no_escape, advance,
    if_neg nonzero]

theorem escape_gathers (quoted : Quoted s) (is_state : tok.top.state = s)
    (inside : 0x5C ≠ tok.quoteChar) {e b : UInt8} (escape : simpleEscape e = some b)
    (obj : Json δ) :
    ∃ tok', Leads (plainRound libc) ⟨tok, obj, 0x5C :: e :: rest⟩ ⟨tok', obj, rest⟩ ∧
      Gathered s tok tok' [b] := by
  refine ⟨(((tok.skipTo s).enter .stringEscape).append [b]).enter s,
    .head (backslash_goes quoted is_state inside obj _) (.single ?_),
    ⟨⟨rfl, rfl, rfl, rfl⟩, rfl, rfl, rfl, rfl, rfl⟩⟩
  rw [Goes, plainRound_cons, switch]
  simp only [Tokener.enter, stringEscapeState, escape, advance, if_neg (simpleEscape_ne escape).1]
  rfl

theorem unicode_gathers (quoted : Quoted s) (is_state : tok.top.state = s)
    (inside : 0x5C ≠ tok.quoteChar) {u bytes : List UInt8} {alone : Bool}
    (units : Units none u bytes alone) (ahead : alone → ∀ more, rest ≠ 0x5C :: 0x75 :: more)
    (obj : Json δ) :
    ∃ tok', Leads (plainRound libc) ⟨tok, obj, 0x5C :: 0x75 :: (u ++ rest)⟩ ⟨tok', obj, rest⟩ ∧
      Gathered s tok tok' bytes := by
  -- The tokener behind the letter `u`, with no digits yet.
  let escaping : Tokener δ :=
    { ((tok.skipTo s).enter .stringEscape).enter .escapeUnicode with ucsChar := 0, stPos := 0 }
  obtain ⟨tok', looped, unescaped⟩ := @Units.loop δ escaping obj 0 rest none u bytes alone units rfl
    rfl rfl ahead
  have letter : Goes (plainRound libc) ⟨(tok.skipTo s).enter .stringEscape, obj,
      0x75 :: (u ++ rest)⟩ ⟨escaping, obj, u ++ rest⟩ := rfl
  have digits : Goes (plainRound libc) ⟨escaping, obj, u ++ rest⟩ ⟨tok', obj, rest⟩ := by
    obtain ⟨c, more, rfl⟩ : ∃ c more, u = c :: more := by
      cases units <;> exact ⟨_, _, rfl⟩
    exact looped
  refine ⟨tok', .head (backslash_goes quoted is_state inside obj _) (.head letter (.single digits)),
    ?_⟩
  have start : Frame tok escaping := ⟨rfl, rfl, rfl, rfl⟩
  exact
    { toFrame := start.trans unescaped.toFrame
      state := by rw [unescaped.top]; rfl
      current := by rw [unescaped.top]; rfl
      objFieldName := by rw [unescaped.top]; rfl
      pb := unescaped.pb
      quoteChar := unescaped.quoteChar }

/-- The inside of a string is gathered. -/
theorem Chars.gathers {q : UInt8} {alone : Bool} {w bytes : List UInt8}
    (chars : Chars q alone w bytes) (quote : Quote q) (quoted : Quoted s)
    (is_state : tok.top.state = s) (quoteChar : tok.quoteChar = q)
    (ahead : alone → ∀ more, rest ≠ 0x5C :: 0x75 :: more) (obj : Json δ) :
    ∃ tok', Leads (plainRound libc) ⟨tok, obj, w ++ rest⟩ ⟨tok', obj, rest⟩ ∧
      Gathered s tok tok' bytes := by
  have inside {tok' : Tokener δ} {bytes : List UInt8} (gathered : Gathered s tok tok' bytes) :
      0x5C ≠ tok'.quoteChar := by
    rw [gathered.quoteChar, quoteChar]
    obtain rfl | rfl := quote <;> decide
  induction chars generalizing rest with
  | nil =>
    exact ⟨tok, .refl, ⟨.refl tok, is_state, rfl, rfl, (List.append_nil _).symm, rfl⟩⟩
  | @plain _ w bytes c _ other no_escape nonzero ih =>
    obtain ⟨tok', leads, gathered⟩ := @ih ([c] ++ rest) fun _ more same =>
      no_escape (List.cons.inj same).1
    obtain ⟨tok'', leads', gathered'⟩ := plain_gathers quoted gathered.state
      (by rwa [gathered.quoteChar, quoteChar]) no_escape nonzero obj
    rw [List.append_assoc]
    exact ⟨tok'', leads.trans leads', gathered.trans gathered'⟩
  | @escape _ w bytes e b _ letter ih =>
    have escape := simpleEscape_iff.mpr letter
    obtain ⟨tok', leads, gathered⟩ := @ih ([0x5C, e] ++ rest) fun _ more same =>
      (simpleEscape_ne escape).2 (List.cons.inj (List.cons.inj same).2).1
    obtain ⟨tok'', leads', gathered'⟩ :=
      escape_gathers quoted gathered.state (inside gathered) escape obj
    rw [List.append_assoc]
    exact ⟨tok'', leads.trans leads', gathered.trans gathered'⟩
  | @unicode _ w bytes u bytes' _ units ih =>
    -- In front no high surrogate stands alone: it would have been joined with this escape.
    obtain ⟨tok', leads, gathered⟩ := @ih (0x5C :: 0x75 :: (u ++ rest)) nofun
    obtain ⟨tok'', leads', gathered'⟩ :=
      unicode_gathers quoted gathered.state (inside gathered) units ahead obj
    rw [List.append_assoc]
    exact ⟨tok'', leads.trans leads', gathered.trans gathered'⟩

/-- A string is read up to its closing quotation mark. -/
theorem quoted_comes {q : UInt8} {alone : Bool} {w bytes : List UInt8} {level : Level δ}
    (chars : Chars q alone w bytes) (quote : Quote q) (quoted : Quoted s)
    (is_state : tok.top.state = s) (quoteChar : tok.quoteChar = q)
    (closes : ∀ tok', Gathered s tok tok' bytes → ∀ obj, ∃ tok'',
      switch libc plainLoop tok' obj q rest = advance tok'' obj q rest ∧ Frame tok' tok'' ∧
        tok''.top = level) : Comes libc tok (w ++ [q]) level rest := by
  have nonzero : q ≠ 0 := by obtain rfl | rfl := quote <;> decide
  have no_escape : q ≠ 0x5C := by obtain rfl | rfl := quote <;> decide
  intro obj
  obtain ⟨tok', leads, gathered⟩ := @Chars.gathers δ libc tok s ([q] ++ rest) q alone w bytes chars
    quote quoted is_state quoteChar (fun _ _ same => no_escape (List.cons.inj same).1) obj
  obtain ⟨tok'', round, frame, top⟩ := closes tok' gathered obj
  refine ⟨tok'', obj, ?_, gathered.toFrame.trans frame, top⟩
  rw [List.append_assoc]
  refine leads.trans (.single ?_)
  rw [Goes, List.singleton_append, plainRound_cons, round, advance, if_neg nonzero]

end Strings

/-! ### What numbers stand for -/

theorem isDoubleChar_iff (c : UInt8) : isDoubleChar c ↔ c ∈ doubleChars := by
  revert c
  apply forall_byte
  decide +kernel

/-- A character that a number begins with. -/
theorem number_first (c : UInt8) (first : isdigit c ∨ c = 0x2D) :
    c ∈ numberChars ∧ isspace c = false ∧ c ≠ 0x2B ∧ (c = 0x2D → isdigit c = false) := by
  revert c
  apply forall_byte
  decide +kernel

/-- Digits are taken as far as they go. -/
theorem Digits.takeWhile {digits rest : List UInt8} (split : Digits digits rest) :
    (digits ++ rest).takeWhile isdigit = digits := by
  rw [List.takeWhile_append_of_pos (List.all_eq_true.mp split.digits)]
  cases rest with
  | nil => exact List.append_nil _
  | cons c rest =>
    rw [List.takeWhile_cons_of_neg (by rw [split.rest c rfl]; exact Bool.false_ne_true),
      List.append_nil]

theorem digits_takeWhile {w : List UInt8} (some_digit : w.takeWhile isdigit ≠ []) :
    Digits (w.takeWhile isdigit) (w.dropWhile isdigit) := by
  refine ⟨some_digit, List.all_takeWhile, fun c is_head => ?_⟩
  have other := List.head?_dropWhile_not isdigit w
  rw [is_head] at other
  exact other

theorem takeWhile_ne_nil {c : UInt8} (digit : isdigit c) (w : List UInt8) :
    (c :: w).takeWhile isdigit ≠ [] := by
  rw [List.takeWhile_cons_of_pos digit]
  exact List.cons_ne_nil _ _

theorem ofDigits_eq (digits : List UInt8) :
    Nat.ofDigits (10 : ℤ) (digits.reverse.map fun b => b.toNat - 0x30) = digitsValue digits := by
  rw [digitsValue, Nat.coe_ofDigits]
  rfl

theorem jsonParseInt64_minus (w : List UInt8) :
    jsonParseInt64 (0x2D :: w) =
      if w.takeWhile isdigit = [] then none
      else some (max (-(digitsValue (w.takeWhile isdigit) : ℤ)) (-2 ^ 63)) := by
  have kept : (0x2D :: w).dropWhile isspace = 0x2D :: w := rfl
  simp only [jsonParseInt64, scanD64, kept, List.headD_cons, List.tail_cons, true_or, if_true,
    ofDigits_eq]
  split_ifs with no_digit low high
  · rfl
  · rw [Option.map_some, if_pos rfl, max_eq_right low.le]
  · omega
  · rw [Option.map_some, if_neg Bool.false_ne_true, max_eq_left (not_lt.mp low)]

theorem jsonParseInt64_digit {c : UInt8} (digit : isdigit c) (w : List UInt8) :
    jsonParseInt64 (c :: w) =
      some (min (digitsValue ((c :: w).takeWhile isdigit) : ℤ) (2 ^ 63 - 1)) := by
  obtain ⟨-, no_space, no_plus, no_minus⟩ := number_first c (.inl digit)
  have no_minus : c ≠ 0x2D := by
    intro minus
    exact Bool.false_ne_true ((no_minus minus).symm.trans digit)
  have kept : (c :: w).dropWhile isspace = c :: w :=
    List.dropWhile_cons_of_neg (by rw [no_space]; exact Bool.false_ne_true)
  simp only [jsonParseInt64, scanD64, kept, List.headD_cons, no_minus, no_plus, or_self, if_false,
    ofDigits_eq, takeWhile_ne_nil digit]
  split_ifs with low high
  · omega
  · rw [Option.map_some, if_pos rfl, min_eq_right (by omega)]
  · rw [Option.map_some, if_neg Bool.false_ne_true, min_eq_left (by omega)]

/-- What `json_parse_int64` makes of a text that begins as a number. -/
theorem jsonParseInt64_eq_some_iff {w : List UInt8} {i : ℤ}
    (begins : ∃ c ∈ w.head?, isdigit c ∨ c = 0x2D) : jsonParseInt64 w = some i ↔ Integer w i := by
  obtain ⟨c, is_head, first⟩ := begins
  obtain ⟨w, rfl⟩ := List.head?_eq_some_iff.mp is_head
  constructor
  · intro value
    rcases first with digit | rfl
    · rw [jsonParseInt64_digit digit] at value
      obtain rfl := Option.some.inj value
      have whole := Integer.positive (digits_takeWhile (takeWhile_ne_nil digit w))
      rwa [List.takeWhile_append_dropWhile] at whole
    · rw [jsonParseInt64_minus] at value
      split_ifs at value with no_digit
      obtain rfl := Option.some.inj value
      have whole := Integer.negative (digits_takeWhile no_digit)
      rwa [List.takeWhile_append_dropWhile] at whole
  · intro integer
    generalize c :: w = all at integer
    cases integer with
    | @positive digits rest split =>
      obtain ⟨b, digits, rfl⟩ := List.exists_cons_of_ne_nil split.some_digit
      have digit := List.all_eq_true.mp split.digits b (List.mem_cons_self ..)
      rw [List.cons_append, jsonParseInt64_digit digit, ← List.cons_append, split.takeWhile]
    | @negative digits rest split =>
      rw [jsonParseInt64_minus, split.takeWhile, if_neg split.some_digit]

/-- The value of a number. -/
theorem numberValue_eq_some_iff {w : List UInt8} {v : Json δ} (number : NumberText w) :
    numberValue libc (w.any isDoubleChar) w = some v ↔
      (∃ i, (∀ c ∈ w, c ∉ doubleChars) ∧ Integer w i ∧ v = .int i) ∨
        ∃ d, (∃ c ∈ w, c ∈ doubleChars) ∧ libc.scanLf w = some d ∧ v = .double d := by
  unfold numberValue
  split_ifs with double
  · have some_mark : ∃ c ∈ w, c ∈ doubleChars := by
      simpa only [List.any_eq_true, isDoubleChar_iff] using double
    rw [Option.map_eq_some_iff]
    constructor
    · rintro ⟨d, scanned, rfl⟩
      exact .inr ⟨d, some_mark, scanned, rfl⟩
    · rintro (⟨-, no_mark, -⟩ | ⟨d, -, scanned, rfl⟩)
      · obtain ⟨c, mem, mark⟩ := some_mark
        exact absurd mark (no_mark c mem)
      · exact ⟨d, scanned, rfl⟩
  · have no_mark : ∀ c ∈ w, c ∉ doubleChars := by
      simpa only [List.any_eq_true, isDoubleChar_iff, not_exists, not_and] using double
    rw [Option.map_eq_some_iff]
    constructor
    · rintro ⟨i, parsed, rfl⟩
      exact .inl ⟨i, no_mark, (jsonParseInt64_eq_some_iff number.1).mp parsed, rfl⟩
    · rintro (⟨i, -, integer, rfl⟩ | ⟨-, ⟨c, mem, mark⟩, -⟩)
      · exact ⟨i, (jsonParseInt64_eq_some_iff number.1).mpr integer, rfl⟩
      · exact absurd mark (no_mark c mem)

/-! ### Words and numbers -/

/-- A state that reads a word. It is left with the character behind the word. -/
structure Spells (libc : Libc δ) (s : State) (word : List UInt8) (v : Json δ) : Prop where
  plain : 0 ∉ word
  more : ∀ {tok : Tokener δ} (obj : Json δ) (c : UInt8) (rest : List UInt8),
    tok.top.state = s → tok.stPos = tok.pb.length → (tok.pb ++ [c]).map tolower <+: word →
    switch libc plainLoop tok obj c rest =
      advance { tok.append [c] with stPos := tok.stPos + 1 } obj c rest
  last : ∀ {tok : Tokener δ} (obj : Json δ) (c : UInt8) (rest : List UInt8),
    tok.top.state = s → tok.stPos = tok.pb.length → tok.pb.map tolower = word →
    switch libc plainLoop tok obj c rest =
      redoChar (((tok.append [c]).put v).skipTo .finish) obj c rest

section Words

variable {tok : Tokener δ} {obj : Json δ} {c : UInt8} {rest : List UInt8} {s : State} {v : Json δ}

/-- As much of a word as has been read. -/
theorem take_of_isPrefix {word : List UInt8} {pb : List UInt8} {n : ℕ}
    (spelled : (pb ++ [c]).map tolower <+: word) (length : word.length = n) :
    ((pb ++ [c]).map tolower).take (min (pb.length + 1) n) = word.take (min (pb.length + 1) n) ∧
      pb.length < n := by
  have short := spelled.length_le
  simp only [List.length_map, List.length_append, List.length_singleton] at short
  rw [Nat.min_eq_left (by omega)]
  refine ⟨?_, by omega⟩
  rw [List.take_of_length_le (by simp), List.prefix_iff_eq_take.mp spelled]
  simp

/-- The whole word has been read. -/
theorem take_of_eq {word : List UInt8} {pb : List UInt8} {n : ℕ} (spelled : pb.map tolower = word)
    (length : word.length = n) :
    ((pb ++ [c]).map tolower).take (min (pb.length + 1) n) = word.take (min (pb.length + 1) n) ∧
      pb.length = n := by
  have same : pb.length = n := by rw [← length, ← spelled, List.length_map]
  rw [same, Nat.min_eq_right (Nat.le_succ n), List.map_append, spelled, ← length, List.take_left,
    List.take_length]
  exact ⟨rfl, rfl⟩

theorem null_spells : Spells libc .null (ascii "null") .null where
  plain := by decide
  more {tok} obj c rest is_state pos spelled := by
    obtain ⟨same, less⟩ := take_of_isPrefix (n := 4) spelled rfl
    rw [switch_null _ _ _ is_state, pos, if_pos same, if_neg (ne_of_lt less)]
  last {tok} obj c rest is_state pos spelled := by
    obtain ⟨same, all⟩ := @take_of_eq c _ _ 4 spelled rfl
    rw [switch_null _ _ _ is_state, pos, if_pos same, if_pos all]

theorem true_spells : Spells libc .boolean (ascii "true") (.boolean true) where
  plain := by decide
  more {tok} obj c rest is_state pos spelled := by
    obtain ⟨same, less⟩ := take_of_isPrefix (n := 4) spelled rfl
    rw [switch_boolean _ _ _ is_state, pos, if_pos same, if_neg (ne_of_lt less)]
  last {tok} obj c rest is_state pos spelled := by
    obtain ⟨same, all⟩ := @take_of_eq c _ _ 4 spelled rfl
    rw [switch_boolean _ _ _ is_state, pos, if_pos same, if_pos all]

/-- No beginning of one word is a beginning of the other. -/
theorem not_true_of_false {m : List UInt8} {n k : ℕ} (positive : 0 < n)
    (same : m.take k = (ascii "false").take k) (some_letter : 0 < k) :
    m.take n ≠ (ascii "true").take n := by
  intro same'
  have first := congrArg (fun l => l.head?) same
  have first' := congrArg (fun l => l.head?) same'
  simp only [List.head?_take, Nat.ne_of_gt positive, Nat.ne_of_gt some_letter, if_false]
    at first first'
  rw [first] at first'
  exact absurd first' (by decide)

theorem false_spells : Spells libc .boolean (ascii "false") (.boolean false) where
  plain := by decide
  more {tok} obj c rest is_state pos spelled := by
    obtain ⟨same, less⟩ := take_of_isPrefix (n := 5) spelled rfl
    rw [switch_boolean _ _ _ is_state, pos, if_neg (not_true_of_false (by omega) same (by omega)),
      if_pos same, if_neg (ne_of_lt less)]
  last {tok} obj c rest is_state pos spelled := by
    obtain ⟨same, all⟩ := @take_of_eq c _ _ 5 spelled rfl
    rw [switch_boolean _ _ _ is_state, pos, if_neg (not_true_of_false (by omega) same (by omega)),
      if_pos same, if_pos all]

theorem tolower_zero : tolower 0 = 0 := by decide

/-- The rest of a word is read, and the character behind it is left. -/
theorem Spells.comes {word w : List UInt8} (spells : Spells libc s word v)
    (is_state : tok.top.state = s) (pos : tok.stPos = tok.pb.length)
    (spelled : (tok.pb ++ w).map tolower = word) (c : UInt8) (rest : List UInt8) :
    Comes libc tok w ⟨.eatws, .finish, v, tok.top.objFieldName⟩ (c :: rest) := by
  induction w generalizing tok with
  | nil =>
    rw [List.append_nil] at spelled
    refine Comes.of_redo (fun obj => spells.last obj c rest is_state pos spelled)
      ⟨rfl, rfl, rfl, rfl⟩ (.refl _ _)
  | cons b w ih =>
    have nonzero : b ≠ 0 := by
      rintro rfl
      apply spells.plain
      rw [← spelled]
      exact List.mem_map.mpr ⟨0, by simp, tolower_zero⟩
    have whole : (tok.pb ++ [b] ++ w).map tolower = word := by rwa [List.append_assoc]
    have begun : (tok.pb ++ [b]).map tolower <+: word := by
      rw [← whole, @List.map_append _ _ _ _ w]
      exact List.prefix_append _ _
    refine Comes.cons (fun obj => spells.more obj b _ is_state pos begun) nonzero
      ⟨rfl, rfl, rfl, rfl⟩ ?_
    exact ih is_state (by simp [Tokener.append, pos]) whole

theorem number_plain {w : List UInt8} (number : ∀ c ∈ w, c ∈ numberChars) : 0 ∉ w := by
  intro mem
  exact absurd (number 0 mem) (by decide)

/-- The characters of a number are read, and the character behind them is left. -/
theorem number_comes {w : List UInt8} (is_state : tok.top.state = .number)
    (number : ∀ c ∈ w, c ∈ numberChars) (other : c ∉ numberChars)
    (value : numberValue libc (tok.isDouble || w.any isDoubleChar) (text (tok.pb ++ w)) = some v)
    (rest : List UInt8) :
    Comes libc tok w ⟨.eatws, .finish, v, tok.top.objFieldName⟩ (c :: rest) := by
  induction w generalizing tok with
  | nil =>
    rw [List.any_nil, Bool.or_false, List.append_nil] at value
    have round (obj : Json δ) : plainRound libc ⟨tok, obj, c :: rest⟩ =
        .inl ⟨(tok.put v).skipTo .finish, obj, c :: rest⟩ := by
      rw [plainRound_cons, switch_number _ _ _ is_state, if_neg fun h => other h.2, value]
      rfl
    exact Comes.of_redo round ⟨rfl, rfl, rfl, rfl⟩ (.refl _ _)
  | cons b w ih =>
    obtain ⟨is_number, number⟩ := List.forall_mem_cons.mp number
    have nonzero : b ≠ 0 := by
      rintro rfl
      exact absurd is_number (by decide)
    have round (obj : Json δ) : plainRound libc ⟨tok, obj, b :: (w ++ c :: rest)⟩ =
        advance { tok.append [b] with isDouble := tok.isDouble || isDoubleChar b } obj b
          (w ++ c :: rest) := by
      rw [plainRound_cons, switch_number _ _ _ is_state, if_pos ⟨nonzero, is_number⟩]
    refine Comes.cons round nonzero ⟨rfl, rfl, rfl, rfl⟩ (ih is_state number ?_)
    simpa [Tokener.append, Bool.or_assoc] using value

end Words

/-! ### Values -/

section Values

variable {tok tok' : Tokener δ} {c : UInt8} {w g rest : List UInt8} {s : State} {v : Json δ}
  {name : Option (List UInt8)} {level : Level δ} {p : Place}

/-- At a character that is part of no gap, the saved state is entered. -/
theorem enter_round (top : tok.top = ⟨.eatws, s, v, name⟩) (solid : Solid c) (obj : Json δ)
    (rest : List UInt8) :
    plainRound libc ⟨tok, obj, c :: rest⟩ = .inl ⟨tok.enter s, obj, c :: rest⟩ := by
  rw [plainRound_cons, switch_eatws _ _ _ (by rw [top]), if_neg (by rw [solid.1]; decide),
    if_neg solid.2, top]
  rfl

theorem Comes.enter (top : tok.top = ⟨.eatws, s, v, name⟩) (solid : Solid c)
    (later : Comes libc (tok.enter s) (c :: w) level rest) : Comes libc tok (c :: w) level rest :=
  .of_redo (fun obj => enter_round top solid obj (w ++ rest)) ⟨rfl, rfl, rfl, rfl⟩ later

/-- A character that the saved state takes, and then a gap. -/
theorem Comes.token {c' : UInt8} {s' : State} {v' : Json δ} {name' : Option (List UInt8)}
    (tok' : Tokener δ) (top : tok.top = ⟨.eatws, s, v, name⟩) (solid : Solid c') (nonzero : c' ≠ 0)
    (round : ∀ obj, switch libc plainLoop (tok.enter s) obj c' (g ++ c :: rest) =
      advance tok' obj c' (g ++ c :: rest)) (frame : Frame tok tok')
    (after : tok'.top = ⟨.eatws, s', v', name'⟩) (gap : Gap g) :
    Comes libc tok (c' :: g) ⟨.eatws, s', v', name'⟩ (c :: rest) := by
  rw [← after]
  exact .enter top solid (.cons round nonzero ⟨frame.1, frame.2, frame.3, frame.4⟩
    (gap.comes (by rw [after]) _))

/-- What stands behind a gap. -/
theorem Comes.append {g' x : List UInt8} {level' : Level δ}
    (first : Comes libc tok (w ++ g') level (x ++ g ++ rest))
    (second : ∀ tok', Frame tok tok' → tok'.top = level → Comes libc tok' (x ++ g) level' rest) :
    Comes libc tok (w ++ (g' ++ x) ++ g) level' rest := by
  have both := first.trans second
  rwa [List.append_assoc, ← List.append_assoc, ← List.append_assoc] at both ⊢

/-- A gap behind what has been read. -/
theorem Comes.gap (comes : Comes libc tok w ⟨.eatws, s, v, name⟩ (g ++ c :: rest)) (gap : Gap g) :
    Comes libc tok (w ++ g) ⟨.eatws, s, v, name⟩ (c :: rest) := by
  refine comes.trans fun tok' _ top => ?_
  rw [← top]
  exact gap.comes (by rw [top]) _

/-- A value above a level: it is pushed, read, popped and added. -/
theorem Comes.child {c' : UInt8} {x : List UInt8} {add : State} {cur : Json δ}
    (top : tok.top = ⟨.eatws, s, cur, name⟩) (solid : Solid c')
    (push : ∀ obj, switch libc plainLoop (tok.enter s) obj c' (x ++ c :: rest) =
      redoChar ((tok.enter s).enter add).push obj c' (x ++ c :: rest))
    (child : Comes libc ((tok.enter s).enter add).push (c' :: x) ⟨.eatws, .finish, v, none⟩
      (c :: rest)) (behind : Solid c)
    (added : ∀ tok' : Tokener δ, tok'.top = ⟨add, s, cur, name⟩ →
      ∃ tok'', switch libc plainLoop tok' v c rest = redoChar tok'' v c rest ∧
        Frame tok' tok'' ∧ tok''.top = level) :
    Comes libc tok (c' :: x) level (c :: rest) := by
  intro obj
  obtain ⟨child_tok, child_obj, leads, frame, child_top⟩ := child obj
  have popped : plainRound libc ⟨child_tok.enter .finish, child_obj, c :: rest⟩ =
      .inl ⟨{ child_tok.enter .finish with
        top := ⟨add, s, cur, name⟩, below := tok.below }, v, c :: rest⟩ := by
    have below : child_tok.below = ⟨add, s, cur, name⟩ :: tok.below := by
      rw [frame.below]
      simp only [Tokener.push, Tokener.enter, top]
    rw [plainRound_cons, switch]
    simp only [Tokener.enter, finishState, below, child_top]
    rfl
  obtain ⟨tok'', round, frame', top'⟩ := added { child_tok.enter .finish with
    top := ⟨add, s, cur, name⟩, below := tok.below } rfl
  -- The state is entered and pushes, the value is read, its end is entered and pops, and the
  -- value is added.
  refine ⟨tok'', v, ?_, ?_, top'⟩
  · refine .head (enter_round top solid obj _) (.head (push obj) (leads.trans ?_))
    exact .head (enter_round child_top behind child_obj rest) (.head popped (.single round))
  · exact ⟨frame'.below, frame'.maxDepth.trans frame.maxDepth, frame'.strict.trans frame.strict,
      frame'.err.trans frame.err⟩

/-- A character that a value can begin with. -/
def Begins (c : UInt8) : Prop := Solid c ∧ c ≠ 0 ∧ c ≠ 0x5D

instance (c : UInt8) : Decidable (Solid c) := inferInstanceAs (Decidable (_ ∧ _))

instance (c : UInt8) : Decidable (Begins c) := inferInstanceAs (Decidable (_ ∧ _))

theorem tolower_eq (c : UInt8) :
    (tolower c = 0x6E → c = 0x4E ∨ c = 0x6E) ∧ (tolower c = 0x74 → c = 0x54 ∨ c = 0x74) ∧
      (tolower c = 0x66 → c = 0x46 ∨ c = 0x66) := by
  revert c
  apply forall_byte
  decide +kernel

theorem number_begins (c : UInt8) (number : isdigit c ∨ c = 0x2D) : Begins c := by
  revert c
  apply forall_byte
  decide +kernel

/-- The first letter of a word. -/
theorem first_letter {b : UInt8} {word w : List UInt8} (spelled : w.map tolower = b :: word) :
    ∃ c w', w = c :: w' ∧ tolower c = b := by
  cases w with
  | nil => cases spelled
  | cons c w => exact ⟨c, w, rfl, (List.cons.inj spelled).1⟩

/-- A text that comes to a place begins with a character that can begin a value. -/
theorem Reads.begins {strict : Bool} {n : ℕ} (reads : Reads libc strict n p name w v) :
    ∃ c w', w = c :: w' ∧ Begins c := by
  have longer {a b : List UInt8} (begins : ∃ c w', a = c :: w' ∧ Begins c) :
      ∃ c w', a ++ b = c :: w' ∧ Begins c := by
    obtain ⟨c, w', rfl, begins⟩ := begins
    exact ⟨c, w' ++ b, rfl, begins⟩
  induction reads with
  | null spelled =>
    obtain ⟨c, w', rfl, is_n⟩ := first_letter spelled
    obtain rfl | rfl := (tolower_eq c).1 is_n <;> exact ⟨_, _, rfl, by decide⟩
  | boolean b spelled =>
    cases b with
    | true =>
      obtain ⟨c, w', rfl, is_t⟩ := first_letter spelled
      obtain rfl | rfl := (tolower_eq c).2.1 is_t <;> exact ⟨_, _, rfl, by decide⟩
    | false =>
      obtain ⟨c, w', rfl, is_f⟩ := first_letter spelled
      obtain rfl | rfl := (tolower_eq c).2.2 is_f <;> exact ⟨_, _, rfl, by decide⟩
  | int number | double number =>
    obtain ⟨⟨c, is_head, first⟩, -⟩ := number
    obtain ⟨w', rfl⟩ := List.head?_eq_some_iff.mp is_head
    exact ⟨c, w', rfl, number_begins c first⟩
  | string quote => obtain rfl | rfl := quote <;> exact ⟨_, _, rfl, by decide⟩
  | openArray | openObject => exact ⟨_, _, rfl, by decide⟩
  | item _ _ _ _ ih | member _ _ _ ih => exact longer ih
  | itemComma _ _ ih | closeArray _ _ _ _ ih | name _ _ _ _ _ ih | colon _ _ ih
  | memberComma _ _ ih | closeObject _ _ _ _ ih => exact longer ih

theorem Reads.some_level {strict : Bool} {n : ℕ} (reads : Reads libc strict n p name w v) :
    0 < n := by
  induction reads with
  | null | boolean | int | double | string | openArray | openObject | item | member =>
    exact Nat.succ_pos _
  | itemComma _ _ ih | closeArray _ _ _ _ ih | name _ _ _ _ _ ih | colon _ _ ih
  | memberComma _ _ ih | closeObject _ _ _ _ ih => exact ih

theorem Comment.head {p : CommentPlace} {w : List UInt8} (comment : Comment p w) :
    ∃ w', w = 0x2F :: w' := by
  induction comment with
  | slash | block | line => exact ⟨_, rfl⟩
  | inBlock _ _ _ ih | star _ ih | again _ _ _ ih | inLine _ _ _ ih =>
    obtain ⟨w', rfl⟩ := ih
    exact ⟨_, rfl⟩

theorem space_not_number (c : UInt8) (space : isspace c) : c ∉ numberChars := by
  revert c
  apply forall_byte
  decide +kernel

/-- No gap begins with a character of numbers. -/
theorem Gap.head_not_number (gap : Gap g) (other : c ∉ numberChars) :
    ∀ b ∈ (g ++ [c]).head?, b ∉ numberChars := by
  induction gap generalizing c with
  | nil =>
    rintro b is_head
    cases is_head
    exact other
  | @space g b _ space ih =>
    rw [List.append_assoc]
    cases g with
    | nil =>
      rintro b' is_head
      cases is_head
      exact space_not_number _ space
    | cons b' g => exact ih other
  | @block g w _ comment ih | @line g w _ comment ih =>
    obtain ⟨w', rfl⟩ := comment.head
    cases g with
    | nil =>
      rintro b' is_head
      cases is_head
      decide
    | cons b' g => exact ih other

/-- What stands behind a text that has come to a place, and a gap: no character of numbers
behind a number, and behind an element or a member a character that is part of no gap. -/
def Follows (p : Place) (v : Json δ) (g : List UInt8) (c : UInt8) : Prop :=
  (p = .value → v.IsNumber → ∀ b ∈ (g ++ [c]).head?, b ∉ numberChars) ∧
    (p = .item ∨ p = .member → Solid c ∧ ∀ b ∈ (g ++ [c]).head?, b ∉ numberChars)

/-- Behind a bracket, a comma or a colon anything can stand. -/
theorem follows_of_open {p : Place} (open_place : p ≠ .value ∧ p ≠ .item ∧ p ≠ .member)
    (v : Json δ) (g : List UInt8) (c : UInt8) : Follows p v g c := by
  obtain ⟨not_value, not_item, not_member⟩ := open_place
  exact ⟨fun value => absurd value not_value, fun sep => absurd sep (by tauto)⟩

/-- A bracket or a comma can stand anywhere. -/
theorem follows_of_token (v : Json δ) (gap : Gap g) (solid : Solid c)
    (other : c ∉ numberChars) : Follows p v g c :=
  ⟨fun _ _ => gap.head_not_number other, fun _ => ⟨solid, gap.head_not_number other⟩⟩

/-- A tokener that is about to read a value, with some levels available. -/
structure Ready (tok : Tokener δ) (strict : Bool) (n : ℕ) : Prop where
  top : tok.top = .fresh
  strict : tok.strict = strict
  room : tok.maxDepth = tok.depth + n

theorem start_number (b : UInt8) (first : isdigit b ∨ b = 0x2D) (tok : Tokener δ) (obj : Json δ)
    (rest : List UInt8) :
    startState tok obj b rest =
      redoChar { tok.enter .number with pb := [], isDouble := false } obj b rest := by
  have other : b ≠ 0x7B ∧ b ≠ 0x5B ∧ ¬ (b = 0x4E ∨ b = 0x6E) ∧ ¬ (b = 0x22 ∨ b = 0x27) ∧
      ¬ (b = 0x54 ∨ b = 0x74 ∨ b = 0x46 ∨ b = 0x66) := by
    revert b
    apply forall_byte
    decide +kernel
  unfold startState
  rw [if_neg other.1, if_neg other.2.1, if_neg other.2.2.1, if_neg other.2.2.2.1,
    if_neg other.2.2.2.2, if_pos first]

section Scalars

variable (top : tok.top = .fresh)

include top

/-- A word, from its first letter on. -/
theorem word_comes {b : UInt8} {word : List UInt8} (spells : Spells libc s word v)
    (spelled : (b :: w).map tolower = word) (solid : Solid b)
    (start : ∀ (tok : Tokener δ) (obj : Json δ) (rest : List UInt8),
      startState tok obj b rest = redoChar { tok.enter s with pb := [], stPos := 0 } obj b rest)
    (c : UInt8) (rest : List UInt8) :
    Comes libc tok (b :: w) ⟨.eatws, .finish, v, none⟩ (c :: rest) := by
  have round (obj : Json δ) : plainRound libc ⟨tok.enter .start, obj, (b :: w) ++ c :: rest⟩ =
      .inl ⟨{ (tok.enter .start).enter s with pb := [], stPos := 0 }, obj,
        (b :: w) ++ c :: rest⟩ := start _ obj _
  refine .enter top solid (.of_redo round ⟨rfl, rfl, rfl, rfl⟩ ?_)
  have none_yet : tok.top.objFieldName = none := by rw [top]; rfl
  rw [← none_yet]
  exact spells.comes rfl rfl spelled c rest

theorem null_comes (spelled : w.map tolower = ascii "null") (c : UInt8) (rest : List UInt8) :
    Comes libc tok w ⟨.eatws, .finish, .null, none⟩ (c :: rest) := by
  obtain ⟨b, w, rfl, is_n⟩ := first_letter spelled
  obtain rfl | rfl := (tolower_eq b).1 is_n <;>
    exact word_comes top null_spells spelled (by decide) (fun _ _ _ => rfl) c rest

theorem boolean_comes (b : Bool) (spelled : w.map tolower = ascii (if b then "true" else "false"))
    (c : UInt8) (rest : List UInt8) :
    Comes libc tok w ⟨.eatws, .finish, .boolean b, none⟩ (c :: rest) := by
  cases b with
  | true =>
    obtain ⟨b, w, rfl, is_t⟩ := first_letter spelled
    obtain rfl | rfl := (tolower_eq b).2.1 is_t <;>
      exact word_comes top true_spells spelled (by decide) (fun _ _ _ => rfl) c rest
  | false =>
    obtain ⟨b, w, rfl, is_f⟩ := first_letter spelled
    obtain rfl | rfl := (tolower_eq b).2.2 is_f <;>
      exact word_comes top false_spells spelled (by decide) (fun _ _ _ => rfl) c rest

theorem numberText_comes (number : NumberText w)
    (value : numberValue libc (w.any isDoubleChar) w = some v) (other : c ∉ numberChars)
    (rest : List UInt8) : Comes libc tok w ⟨.eatws, .finish, v, none⟩ (c :: rest) := by
  obtain ⟨⟨b, head, first⟩, number⟩ := number
  obtain ⟨w, rfl⟩ : ∃ w', w = b :: w' := by
    cases w with
    | nil => cases head
    | cons b' w => cases head; exact ⟨w, rfl⟩
  have round (obj : Json δ) : plainRound libc ⟨tok.enter .start, obj, (b :: w) ++ c :: rest⟩ =
      .inl ⟨{ (tok.enter .start).enter .number with pb := [], isDouble := false }, obj,
        (b :: w) ++ c :: rest⟩ := start_number b first _ obj _
  refine .enter top (number_begins b first).1 (.of_redo round ⟨rfl, rfl, rfl, rfl⟩ ?_)
  have none_yet : tok.top.objFieldName = none := by rw [top]; rfl
  rw [← none_yet]
  refine number_comes rfl number other ?_ rest
  rwa [List.nil_append, text_of_plain (number_plain number)]

theorem string_comes {q : UInt8} {alone : Bool} {bytes : List UInt8} (quote : Quote q)
    (chars : Chars q alone w bytes) (rest : List UInt8) :
    Comes libc tok (q :: (w ++ [q])) ⟨.eatws, .finish, .string bytes, none⟩ rest := by
  have solid : Solid q := by obtain rfl | rfl := quote <;> decide
  have nonzero : q ≠ 0 := by obtain rfl | rfl := quote <;> decide
  have opens (obj : Json δ) : plainRound libc ⟨tok.enter .start, obj, q :: (w ++ [q] ++ rest)⟩ =
      advance { (tok.enter .start).enter .string with pb := [], quoteChar := q } obj q
        (w ++ [q] ++ rest) := by
    obtain rfl | rfl := quote <;> rfl
  refine .enter top solid (.cons opens nonzero ⟨rfl, rfl, rfl, rfl⟩
    (quoted_comes chars quote (.inl rfl) rfl rfl fun tok' gathered obj => ?_))
  refine ⟨(tok'.put (.string tok'.pb)).skipTo .finish, ?_, ⟨rfl, rfl, rfl, rfl⟩, ?_⟩
  · have closing : q = tok'.quoteChar := gathered.quoteChar.symm
    rw [switch_string _ _ _ gathered.state, if_neg fun h => h.1 closing, if_pos closing]
  · have none_yet : tok'.top.objFieldName = none := by
      rw [gathered.objFieldName]
      exact congrArg Level.objFieldName top
    simp only [Tokener.put, Tokener.skipTo, gathered.pb, none_yet, List.nil_append]

end Scalars

/-- A name in front of a member's value. -/
theorem name_comes {q : UInt8} {alone : Bool} {k key : List UInt8} {cur : Json δ}
    (top : tok.top = ⟨.eatws, p.state, cur, none⟩) (before : BeforeName p) (quote : Quote q)
    (chars : Chars q alone k key) (rest : List UInt8) :
    Comes libc tok (q :: (k ++ [q])) ⟨.eatws, .objectFieldEnd, cur, some (text key)⟩ rest := by
  have solid : Solid q := by obtain rfl | rfl := quote <;> decide
  have nonzero : q ≠ 0 := by obtain rfl | rfl := quote <;> decide
  have opens (obj : Json δ) : plainRound libc ⟨tok.enter p.state, obj, q :: (k ++ [q] ++ rest)⟩ =
      advance { (tok.enter p.state).enter .objectField with quoteChar := q, pb := [] } obj q
        (k ++ [q] ++ rest) := by
    obtain rfl | rfl := before <;> obtain rfl | rfl := quote <;> rfl
  refine .enter top solid (.cons opens nonzero ⟨rfl, rfl, rfl, rfl⟩
    (quoted_comes chars quote (.inr rfl) rfl rfl fun tok' gathered obj => ?_))
  refine ⟨{ tok' with top := { tok'.top with
    objFieldName := some (text tok'.pb), savedState := .objectFieldEnd, state := .eatws } }, ?_,
    ⟨rfl, rfl, rfl, rfl⟩, ?_⟩
  · have closing : q = tok'.quoteChar := gathered.quoteChar.symm
    rw [switch_objectField _ _ _ gathered.state, if_neg fun h => h.1 closing, if_pos closing]
  · have same : tok'.top.current = cur := by
      rw [gathered.current]
      exact congrArg Level.current top
    simp only [gathered.pb, same, List.nil_append]

theorem Ready.of_frame {strict : Bool} {n : ℕ} (ready : Ready tok strict n)
    (frame : Frame tok tok') (top : tok'.top = tok.top) : Ready tok' strict n := by
  refine ⟨top.trans ready.top, frame.strict.trans ready.strict, ?_⟩
  rw [frame.maxDepth, Tokener.depth, frame.below]
  exact ready.room

/-- The level above one that is ready. -/
theorem Ready.push {strict : Bool} {n : ℕ} (ready : Ready tok strict (n + 1))
    (frame : Frame tok tok') (s add : State) :
    Ready ((tok'.enter s).enter add).push strict n := by
  refine ⟨rfl, frame.strict.trans ready.strict, ?_⟩
  have room : tok'.maxDepth = tok'.below.length + (n + 1) := by
    rw [frame.maxDepth, frame.below]
    exact ready.room
  simp only [Tokener.push, Tokener.enter, Tokener.depth, List.length_cons]
  omega

/-- There is room for a level. -/
theorem Ready.pushState_eq {strict : Bool} {n : ℕ} (ready : Ready tok strict (n + 1))
    (some_level : 0 < n) (frame : Frame tok tok') (s add : State) (obj : Json δ) (c : UInt8)
    (rest : List UInt8) :
    pushState add (tok'.enter s) obj c rest =
      redoChar ((tok'.enter s).enter add).push obj c rest := by
  have room : tok'.maxDepth = tok'.below.length + (n + 1) := by
    rw [frame.maxDepth, frame.below]
    exact ready.room
  rw [pushState, if_neg]
  simp only [Tokener.enter, Tokener.depth]
  omega

theorem BeforeItem.switch_eq (before : BeforeItem p) (tok : Tokener δ) (obj : Json δ)
    (rest : List UInt8) (no_bracket : c ≠ 0x5D) :
    switch libc plainLoop (tok.enter p.state) obj c rest =
      pushState .arrayAdd (tok.enter p.state) obj c rest := by
  obtain rfl | rfl := before <;> exact if_neg no_bracket

theorem BeforeItem.is_open (before : BeforeItem p) :
    p ≠ .value ∧ p ≠ .item ∧ p ≠ .member := by
  obtain rfl | rfl := before <;> decide

/-- A value in an array or an object. -/
theorem Reads.child_comes {strict : Bool} {n : ℕ} {x : List UInt8} {cur : Json δ} (add : State)
    (reads : Reads libc strict n .value none x v)
    (read : ∀ {tok : Tokener δ}, Ready tok strict n →
      Comes libc tok (x ++ g) ⟨.eatws, .finish, v, none⟩ (c :: rest))
    (ready : Ready tok strict (n + 1)) (frame : Frame tok tok')
    (top : tok'.top = ⟨.eatws, s, cur, name⟩)
    (push : ∀ (obj : Json δ) (c : UInt8) (rest : List UInt8), c ≠ 0x5D →
      switch libc plainLoop (tok'.enter s) obj c rest = pushState add (tok'.enter s) obj c rest)
    (behind : Solid c)
    (added : ∀ popped : Tokener δ, popped.top = ⟨add, s, cur, name⟩ →
      ∃ tok'', switch libc plainLoop popped v c rest = redoChar tok'' v c rest ∧
        Frame popped tok'' ∧ tok''.top = level) :
    Comes libc tok' (x ++ g) level (c :: rest) := by
  have some_level := reads.some_level
  obtain ⟨c', x, rfl, begins⟩ := reads.begins
  refine Comes.child top begins.1 (fun obj => ?_) (read (ready.push frame s add)) behind added
  rw [push obj c' _ begins.2.2, ready.pushState_eq some_level frame]

/-- A value of one piece, with the gap behind it; what stands behind it is never empty. -/
theorem Comes.scalar (gap : Gap g)
    (read : ∀ (b : UInt8) (more : List UInt8), b ∈ (g ++ [c]).head? →
      Comes libc tok w ⟨.eatws, s, v, name⟩ (b :: more)) :
    Comes libc tok (w ++ g) ⟨.eatws, s, v, name⟩ (c :: rest) := by
  refine .gap ?_ gap
  cases g with
  | nil => exact read c rest rfl
  | cons b g => exact read b (g ++ c :: rest) rfl

/-- A comma, a colon or a closing bracket behind what has been read. -/
theorem Comes.mark {c' : UInt8} {g' : List UInt8} {s' : State}
    (before : Comes libc tok (w ++ g') ⟨.eatws, s, v, name⟩ (c' :: (g ++ c :: rest)))
    (solid : Solid c') (nonzero : c' ≠ 0)
    (round : ∀ tok', Frame tok tok' → ∀ obj,
      switch libc plainLoop (tok'.enter s) obj c' (g ++ c :: rest) =
        advance ((tok'.enter s).skipTo s') obj c' (g ++ c :: rest)) (gap : Gap g) :
    Comes libc tok (w ++ (g' ++ [c']) ++ g) ⟨.eatws, s', v, name⟩ (c :: rest) := by
  refine .append before fun tok' frame top => ?_
  refine .token ((tok'.enter s).skipTo s') top solid nonzero (round tok' frame) ⟨rfl, rfl, rfl, rfl⟩
    ?_ gap
  simp only [Tokener.skipTo, Tokener.enter, top]

/-- A bracket closes an array; behind a comma, where the tokener is not strict. -/
theorem closeArray_eq (place : p = .item ∨ BeforeItem p)
    (lenient : p = .itemComma → tok.strict = false) (obj : Json δ) (rest : List UInt8) :
    switch libc plainLoop (tok.enter p.state) obj 0x5D rest =
      advance ((tok.enter p.state).skipTo .finish) obj 0x5D rest := by
  obtain rfl | rfl | rfl := place
  · rfl
  · rfl
  · exact if_neg fun h => Bool.noConfusion ((lenient rfl).symm.trans h.2)

/-- A brace closes an object in the same places. -/
theorem closeObject_eq (place : p = .member ∨ BeforeName p)
    (lenient : p = .memberComma → tok.strict = false) (obj : Json δ) (rest : List UInt8) :
    switch libc plainLoop (tok.enter p.state) obj 0x7D rest =
      advance ((tok.enter p.state).skipTo .finish) obj 0x7D rest := by
  obtain rfl | rfl | rfl := place
  · rfl
  · rfl
  · exact if_neg fun h => Bool.noConfusion ((lenient rfl).symm.trans h.2)

/-- A derivation is read, with the gap behind it. -/
theorem Reads.comes {strict : Bool} {n : ℕ} (reads : Reads libc strict n p name w v)
    (ready : Ready tok strict n) (gap : Gap g) (follows : Follows p v g c) :
    Comes libc tok (w ++ g) ⟨.eatws, p.state, v, name⟩ (c :: rest) := by
  induction reads generalizing tok g c rest with
  | null spelled => exact .scalar gap fun b more _ => null_comes ready.top spelled b more
  | boolean b spelled =>
    exact .scalar gap fun b' more _ => boolean_comes ready.top b spelled b' more
  | int number no_mark integer =>
    -- A number goes on as long as its characters do.
    exact .scalar gap fun b more head => numberText_comes ready.top number
      ((numberValue_eq_some_iff number).mpr (.inl ⟨_, no_mark, integer, rfl⟩))
      (follows.1 rfl trivial b head) more
  | double number some_mark scanned =>
    exact .scalar gap fun b more head => numberText_comes ready.top number
      ((numberValue_eq_some_iff number).mpr (.inr ⟨_, some_mark, scanned, rfl⟩))
      (follows.1 rfl trivial b head) more
  | string quote chars => exact .gap (string_comes ready.top quote chars _) gap
  | openArray =>
    refine .token (((tok.enter .start).skipTo .array).put (.array [])) ready.top (by decide)
      (by decide) (fun _ => rfl) ⟨rfl, rfl, rfl, rfl⟩ ?_ gap
    simp only [Tokener.put, Tokener.skipTo, Tokener.enter, ready.top, Level.fresh, Place.state]
  | @item n p w g' x items v reads before gap' child ih ih' =>
    obtain ⟨c', x', rfl, begins⟩ := child.begins
    obtain ⟨solid, other⟩ := follows.2 (.inl rfl)
    refine .append (ih ready gap' (follows_of_open before.is_open _ _ c')) fun tok' frame top => ?_
    -- The element is read on a level of its own, and added when that level is gone.
    refine child.child_comes .arrayAdd (fun ready' => ih' ready' gap ⟨fun _ _ => other, by simp⟩)
      ready frame top (fun obj b more => before.switch_eq tok' obj more) solid fun popped top' => ?_
    refine ⟨(popped.put (.array (items ++ [v]))).skipTo .arraySep, ?_, ⟨rfl, rfl, rfl, rfl⟩, ?_⟩
    · rw [switch, top']
      simp only [arrayAddState, top', jsonObjectArrayAdd]
    · simp only [Tokener.put, Tokener.skipTo, top', Place.state]
  | itemComma reads gap' ih =>
    exact .mark (ih ready gap' (follows_of_token _ gap' (by decide) (by decide))) (by decide)
      (by decide) (fun _ _ _ => rfl) gap
  | closeArray reads lenient gap' place ih =>
    refine .mark (ih ready gap' (follows_of_token _ gap' (by decide) (by decide))) (by decide)
      (by decide) (fun tok' frame obj => ?_) gap
    exact closeArray_eq place (fun comma => frame.strict.trans (ready.strict.trans (lenient comma)))
      obj _
  | openObject =>
    refine .token (((tok.enter .start).skipTo .objectFieldStart).put (.object [])) ready.top
      (by decide) (by decide) (fun _ => rfl) ⟨rfl, rfl, rfl, rfl⟩ ?_ gap
    simp only [Tokener.put, Tokener.skipTo, Tokener.enter, ready.top, Level.fresh, Place.state]
  | @name n p q alone w g' k key members reads before gap' quote chars ih =>
    have open_place : p ≠ .value ∧ p ≠ .item ∧ p ≠ .member := by
      obtain rfl | rfl := before <;> decide
    refine .append (ih ready gap' (follows_of_open open_place _ _ q)) fun tok' frame top => ?_
    exact .gap (name_comes top before quote chars _) gap
  | colon reads gap' ih =>
    exact .mark (ih ready gap' (follows_of_token _ gap' (by decide) (by decide))) (by decide)
      (by decide) (fun _ _ _ => rfl) gap
  | @member n key w g' x members v reads gap' child ih ih' =>
    obtain ⟨c', x', rfl, begins⟩ := child.begins
    obtain ⟨solid, other⟩ := follows.2 (.inr rfl)
    refine .append (ih ready gap' (follows_of_open (by decide) _ _ c')) fun tok' frame top => ?_
    refine child.child_comes .objectValueAdd
      (fun ready' => ih' ready' gap ⟨fun _ _ => other, by simp⟩) ready frame top
      (fun _ _ _ _ => rfl) solid fun popped top' => ?_
    refine ⟨{ popped with top :=
      ⟨.eatws, .objectSep, .object (Members.add members key v), none⟩ }, ?_,
      ⟨rfl, rfl, rfl, rfl⟩, rfl⟩
    rw [switch, top']
    simp only [objectValueAddState, top', objectAdd]
  | memberComma reads gap' ih =>
    exact .mark (ih ready gap' (follows_of_token _ gap' (by decide) (by decide))) (by decide)
      (by decide) (fun _ _ _ => rfl) gap
  | closeObject reads lenient gap' place ih =>
    refine .mark (ih ready gap' (follows_of_token _ gap' (by decide) (by decide))) (by decide)
      (by decide) (fun tok' frame obj => ?_) gap
    exact closeObject_eq place
      (fun comma => frame.strict.trans (ready.strict.trans (lenient comma))) obj _

end Values

/-! ### Whole texts -/

section Texts

variable {tok : Tokener δ} {strict : Bool} {n maxDepth : ℕ} {w rest beyond : List UInt8} {c : UInt8}
  {v : Json δ}

/-- A text is read to where a value begins, with some levels available. -/
def LeadsTo (libc : Libc δ) (tok : Tokener δ) (obj : Json δ) (strict : Bool) (n : ℕ)
    (w rest : List UInt8) : Prop :=
  ∃ tok' obj', Leads (plainRound libc) ⟨tok, obj, w ++ rest⟩ ⟨tok', obj', rest⟩ ∧
    Ready tok' strict n ∧ tok'.err = tok.err

/-- An array or an object is read to where a value is expected, and the value's level is pushed. -/
theorem Reads.leadsTo {p : Place} {add : State} {name : Option (List UInt8)} {pre g : List UInt8}
    {obj : Json δ} (reads : Reads libc strict (n + 1) p name w v)
    (below : ∀ c, Begins c → ∀ rest, LeadsTo libc tok obj strict (n + 1) pre (c :: rest))
    (is_open : p ≠ .value ∧ p ≠ .item ∧ p ≠ .member) (gap : Gap g)
    (push : ∀ (tok : Tokener δ) (obj : Json δ) (rest : List UInt8),
      switch libc plainLoop (tok.enter p.state) obj c rest =
        pushState add (tok.enter p.state) obj c rest)
    (some_level : 0 < n) (solid : Solid c) (rest : List UInt8) :
    LeadsTo libc tok obj strict n (pre ++ (w ++ g)) (c :: rest) := by
  obtain ⟨c', w', rfl, begins⟩ := reads.begins
  obtain ⟨tok₁, obj₁, leads₁, ready, err⟩ := below c' begins (w' ++ g ++ c :: rest)
  obtain ⟨tok₂, obj₂, leads₂, frame, top⟩ :=
    reads.comes ready gap (follows_of_open is_open v g c) obj₁
  refine ⟨((tok₂.enter p.state).enter add).push, obj₂, ?_, ready.push frame _ add,
    frame.err.trans err⟩
  rw [List.append_assoc]
  refine leads₁.trans (leads₂.trans (.head (enter_round top solid obj₂ rest) (.single ?_)))
  rw [Goes, plainRound_cons, push, ready.pushState_eq some_level frame]
  rfl

/-- A text that leads to where a value is expected is read, in front of the value. -/
theorem Opened.leadsTo (opened : Opened libc strict maxDepth n w) (some_level : 0 < n)
    (ready : Ready tok strict maxDepth) (obj : Json δ) (begins : Begins c) (rest : List UInt8) :
    LeadsTo libc tok obj strict n w (c :: rest) := by
  induction opened generalizing c rest with
  | @bottom g gap =>
    have comes : Comes libc tok g tok.top (c :: rest) := gap.comes (by rw [ready.top]; rfl) _
    obtain ⟨tok', obj', leads, frame, top⟩ := comes obj
    exact ⟨tok', obj', leads, ready.of_frame frame top, frame.err⟩
  | @array n p pre w g items _ reads before gap ih =>
    exact reads.leadsTo (fun _ => ih (Nat.succ_pos n)) before.is_open gap
      (fun tok obj rest => before.switch_eq tok obj rest begins.2.2) some_level begins.1 rest
  | @object n key pre w g members _ reads gap ih =>
    exact reads.leadsTo (fun _ => ih (Nat.succ_pos n)) (by decide) gap (fun _ _ _ => rfl) some_level
      begins.1 rest

/-- A value at the bottom ends the call at the character behind it. -/
theorem finish_ends (top : tok.top = ⟨.eatws, .finish, v, none⟩) (bottom : tok.below = [])
    (solid : Solid c) (obj : Json δ) (rest : List UInt8) :
    Ends (plainRound libc) ⟨tok, obj, c :: rest⟩ ⟨tok.enter .finish, c :: rest, c = 0⟩ := by
  refine Ends.later (enter_round top solid obj rest) (Ends.now ?_)
  rw [plainRound_cons, switch]
  simp only [Tokener.enter, finishState, bottom]
  rfl

/-- The end of the text inside a comment. -/
theorem comment_ends {p : CommentPlace} {g : List UInt8} (comment : Comment p g)
    (slash : p ≠ .slash) (is_state : tok.top.state = p.state) (obj : Json δ)
    (rest : List UInt8) :
    ∃ tok', Ends (plainRound libc) ⟨tok, obj, 0 :: rest⟩ ⟨tok', rest, true⟩ ∧
      tok'.err = tok.err ∧ tok'.top = { tok.top with state := tok'.top.state } := by
  have ended {tok' : Tokener δ} (round : switch libc plainLoop tok obj 0 rest =
      advance tok' obj 0 rest) : Ends (plainRound libc) ⟨tok, obj, 0 :: rest⟩ ⟨tok', rest, true⟩ :=
    Ends.now round
  cases comment with
  | slash => exact absurd rfl slash
  | block | inBlock | again =>
    refine ⟨tok.append [0], ended ?_, rfl, rfl⟩
    rw [switch_comment _ _ _ is_state, if_pos (by decide)]
  | line | inLine =>
    refine ⟨tok.append [0], ended ?_, rfl, rfl⟩
    rw [switch_commentEol _ _ _ is_state, if_pos (by decide)]
  | star =>
    refine ⟨(tok.append [0]).enter .comment, ended ?_, rfl, rfl⟩
    rw [switch, is_state]
    rfl

/-- What stands behind a value at the bottom. -/
theorem Ending.next {g rest : List UInt8} (ending : Ending v g rest) (gap : Gap g)
    (beyond : List UInt8) :
    ∃ c more, rest ++ 0 :: beyond = c :: more ∧ Solid c ∧ Follows .value v g c := by
  obtain ⟨c, more, split, solid, other⟩ : ∃ c more, rest ++ 0 :: beyond = c :: more ∧ Solid c ∧
      (v.IsNumber → g = [] → c ∉ numberChars) := by
    cases rest with
    | nil => exact ⟨0, beyond, rfl, by decide, fun _ _ => by decide⟩
    | cons c rest => exact ⟨c, rest ++ 0 :: beyond, rfl, ending c rfl⟩
  refine ⟨c, more, split, solid, fun _ number => ?_, by simp⟩
  cases g with
  | nil =>
    rintro b is_head
    cases is_head
    exact other number rfl
  | cons b g => exact gap.head_not_number (c := 0) (by decide)

/-- An accepted text is parsed successfully, to its value. -/
theorem Accepted.parses (accepted : Accepted libc strict maxDepth w v)
    (ready : Ready tok strict maxDepth) (bottom : tok.below = []) (success : tok.err = .success)
    (obj : Json δ) (beyond : List UInt8) :
    ∃ s, Ends (plainRound libc) ⟨tok, obj, w ++ 0 :: beyond⟩ s ∧ s.error = .success ∧
      s.tok.top.current = v := by
  cases accepted with
  | @value g w g' rest v gap reads gap' ending =>
    obtain ⟨c, more, split, solid, follows⟩ := ending.next gap' beyond
    have comes : Comes libc tok (g ++ (w ++ g')) ⟨.eatws, .finish, v, none⟩ (c :: more) :=
      (gap.comes (by rw [ready.top]; rfl) _).trans fun tok' frame top =>
        reads.comes (ready.of_frame frame top) gap' follows
    obtain ⟨tok', obj', leads, frame, top⟩ := comes obj
    rw [show g ++ (w ++ (g' ++ rest)) ++ 0 :: beyond = g ++ (w ++ g') ++ c :: more by
      rw [← split]; simp only [List.append_assoc]]
    refine ⟨_, .of_leads leads (finish_ends top (frame.below.trans bottom) solid obj' more), ?_, ?_⟩
    · exact (if_neg fun h => h.2.1 rfl).trans (frame.err.trans success)
    · exact congrArg Level.current top
  | @comment n p pre w g w' v opened reads gap comment slash =>
    obtain ⟨b, w, rfl, begins⟩ := reads.begins
    obtain ⟨c, rfl⟩ := comment.head
    have follows : Follows .value v g 0x2F :=
      ⟨fun _ _ => gap.head_not_number (by decide), by simp⟩
    obtain ⟨tok₁, obj₁, leads₁, ready₁, err₁⟩ :=
      opened.leadsTo reads.some_level ready obj begins (w ++ g ++ 0x2F :: c ++ 0 :: beyond)
    have comes :
        Comes libc tok₁ (b :: w ++ g ++ 0x2F :: c) ⟨p.state, .finish, v, none⟩ (0 :: beyond) := by
      refine (reads.comes ready₁ gap follows).trans fun tok' _ top => ?_
      rw [show (⟨p.state, .finish, v, none⟩ : Level δ) = { tok'.top with state := p.state } by
        rw [top]; rfl]
      exact comment.comes (by rw [top]) _
    obtain ⟨tok₂, obj₂, leads₂, frame₂, top₂⟩ := comes obj₁
    -- The end of the text leaves the state saved, so that it is no error.
    obtain ⟨tok₃, ended, err₃, top₃⟩ : ∃ tok₃, Ends (plainRound libc) ⟨tok₂, obj₂, 0 :: beyond⟩
        ⟨tok₃, beyond, true⟩ ∧ tok₃.err = tok₂.err ∧
          tok₃.top = { tok₂.top with state := tok₃.top.state } :=
      comment_ends comment slash (by rw [top₂]) obj₂ beyond
    rw [show pre ++ (b :: w ++ (g ++ 0x2F :: c)) ++ 0 :: beyond =
      pre ++ b :: (w ++ g ++ 0x2F :: c ++ 0 :: beyond) by simp]
    refine ⟨_, .of_leads (leads₁.trans leads₂) ended, ?_, ?_⟩
    · rw [Stop.error, if_neg]
      · exact err₃.trans (frame₂.err.trans (err₁.trans success))
      · rw [top₃, top₂]
        exact fun h => h.2.2 rfl
    · rw [top₃, top₂]

end Texts

end LinuxProgram.JsonC
