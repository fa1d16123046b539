import LinuxProgram.JsonC.Calls
import LinuxProgram.JsonC.Derived

/-!
# What is accepted, the grammar derives

The rounds of the plain tokener keep an invariant: what has been read is the text of the levels
below the top, and then a beginning that the grammar knows (`Stage`). Where a call ends
successfully, the invariant is a derivation of the whole text.

## Main results

* `plainRound_sound` — a round keeps the invariant, or ends with what the grammar accepts
* `parses_iff_accepted` — the texts that are parsed successfully are those of the grammar
* `parseVerbose_accepted` — what `json_tokener_parse_verbose` returns
-/

namespace LinuxProgram.JsonC

open Base

variable {δ : Type}

/-! ### What has been read -/

section Stages

variable (libc : Libc δ) (strict : Bool) (maxDepth : ℕ)

/-- The levels that wait below the top, the text in front of it, and the levels that are left. -/
inductive Context : ℕ → List (Level δ) → List UInt8 → Prop
  | bottom {g : List UInt8} : Gap g → Context maxDepth [] g
  | array {n : ℕ} {below : List (Level δ)} {p : Place} {pre w g : List UInt8}
      {items : List (Json δ)} :
      Context (n + 1) below pre → Reads libc strict (n + 1) p none w (.array items) →
      BeforeItem p → Gap g →
      Context n (⟨.arrayAdd, p.state, .array items, none⟩ :: below) (pre ++ (w ++ g))
  | object {n : ℕ} {below : List (Level δ)} {key pre w g : List UInt8}
      {members : List (List UInt8 × Json δ)} :
      Context (n + 1) below pre →
      Reads libc strict (n + 1) .colon (some key) w (.object members) → Gap g →
      Context n (⟨.objectValueAdd, .objectValue, .object members, some key⟩ :: below)
        (pre ++ (w ++ g))

/-- White space and comments, the last of them perhaps open. -/
inductive Skip : State → List UInt8 → Prop
  | gap {g : List UInt8} : Gap g → Skip .eatws g
  | comment {p : CommentPlace} {g w : List UInt8} : Gap g → Comment p w → Skip p.state (g ++ w)

/-- Nothing yet, or what has come to a place. -/
inductive Begun (n : ℕ) : State → Option (List UInt8) → List UInt8 → Json δ → Prop
  | start : Begun n .start none [] .null
  | reads {p : Place} {name : Option (List UInt8)} {w : List UInt8} {v : Json δ} :
      Reads libc strict n p name w v → Begun n p.state name w v

/-- No character of numbers stands behind a number. -/
def Ahead (v : Json δ) (g str : List UInt8) : Prop :=
  v.IsNumber → g = [] → ∀ c ∈ str.head?, c ∉ numberChars

/-- What stands in front of a quotation mark: nothing, or an object up to a name. -/
inductive Opening (n : ℕ) : State → Json δ → List UInt8 → Prop
  | string : Opening n .string .null []
  | name {p : Place} {w g : List UInt8} {members : List (List UInt8 × Json δ)} :
      Reads libc strict n p none w (.object members) → BeforeName p → Gap g →
      Opening n .objectField (.object members) (w ++ g)

/-- Inside quotation marks, the bytes of `k` have been gathered. -/
structure Inside (n : ℕ) (tok : Tokener δ) (s : State) (pre h : List UInt8) (alone : Bool)
    (k : List UInt8) : Prop where
  context : Context libc strict maxDepth n tok.below pre
  opening : Opening libc strict n s tok.top.current h
  name : tok.top.objFieldName = none
  quote : Quote tok.quoteChar
  chars : Chars tok.quoteChar alone k tok.pb

/-- What has been read, for a tokener with `n` levels left. -/
inductive Stage (n : ℕ) (tok : Tokener δ) (obj : Json δ) (str : List UInt8) : List UInt8 → Prop
  | skip {s s' : State} {name : Option (List UInt8)} {pre w g : List UInt8} {v : Json δ}
      (context : Context libc strict maxDepth n tok.below pre)
      (begun : Begun libc strict n s name w v) (skip : Skip s' g)
      (top : tok.top = ⟨s', s, v, name⟩) (ahead : Ahead v g str) :
      Stage n tok obj str (pre ++ (w ++ g))
  | place {s : State} {name : Option (List UInt8)} {pre w g : List UInt8} {v : Json δ}
      (context : Context libc strict maxDepth n tok.below pre)
      (begun : Begun libc strict n s name w v) (gap : Gap g)
      (top : tok.top = ⟨s, s, v, name⟩) (ahead : Ahead v g str)
      (solid : ∀ c ∈ str.head?, Solid c) : Stage n tok obj str (pre ++ (w ++ g))
  | null {pre : List UInt8} (context : Context libc strict maxDepth n tok.below pre)
      (top : tok.top = ⟨.null, .start, .null, none⟩) (pos : tok.stPos = tok.pb.length)
      (spelled : tok.pb.map tolower <+: ascii "null") : Stage n tok obj str (pre ++ tok.pb)
  | boolean {pre : List UInt8} (b : Bool) (context : Context libc strict maxDepth n tok.below pre)
      (top : tok.top = ⟨.boolean, .start, .null, none⟩) (pos : tok.stPos = tok.pb.length)
      (spelled : tok.pb.map tolower <+: ascii (if b then "true" else "false")) :
      Stage n tok obj str (pre ++ tok.pb)
  | number {pre : List UInt8} (context : Context libc strict maxDepth n tok.below pre)
      (top : tok.top = ⟨.number, .start, .null, none⟩)
      (double : tok.isDouble = tok.pb.any isDoubleChar)
      (number : ∀ c ∈ tok.pb, c ∈ numberChars)
      (first : ∃ c ∈ (tok.pb ++ str).head?, isdigit c ∨ c = 0x2D) :
      Stage n tok obj str (pre ++ tok.pb)
  | quoted {s : State} {pre h k : List UInt8} {alone : Bool}
      (inside : Inside libc strict maxDepth n tok s pre h alone k) (state : tok.top.state = s)
      (saved : tok.top.savedState ≠ .finish)
      (ahead : alone → ∀ more, str ≠ 0x5C :: 0x75 :: more) :
      Stage n tok obj str (pre ++ (h ++ tok.quoteChar :: k))
  | escape {s : State} {pre h k : List UInt8} {alone : Bool}
      (inside : Inside libc strict maxDepth n tok s pre h alone k)
      (state : tok.top.state = .stringEscape) (saved : tok.top.savedState = s)
      (ahead : alone → ∀ more, str ≠ 0x75 :: more) :
      Stage n tok obj str (pre ++ (h ++ tok.quoteChar :: (k ++ [0x5C])))
  | unicode {s : State} {pre h k : List UInt8}
      (inside : Inside libc strict maxDepth n tok s pre h false k)
      (state : tok.top.state = .escapeUnicode) (saved : tok.top.savedState = s)
      (pos : tok.stPos = 0) (zero : tok.ucsChar = 0) :
      Stage n tok obj str (pre ++ (h ++ tok.quoteChar :: (k ++ [0x5C, 0x75])))
  | item {s : State} {pre w g : List UInt8} {items : List (Json δ)}
      (context : Context libc strict maxDepth n tok.below pre)
      (reads : Reads libc strict n .item none w (.array (items ++ [obj]))) (gap : Gap g)
      (top : tok.top = ⟨.arrayAdd, s, .array items, none⟩) : Stage n tok obj str (pre ++ (w ++ g))
  | member {s : State} {key pre w g : List UInt8} {members : List (List UInt8 × Json δ)}
      (context : Context libc strict maxDepth n tok.below pre)
      (reads : Reads libc strict n .member none w (.object (Members.add members key obj)))
      (gap : Gap g) (top : tok.top = ⟨.objectValueAdd, s, .object members, some key⟩) :
      Stage n tok obj str (pre ++ (w ++ g))

variable (text beyond : List UInt8)

/-- A call that has come to `str` in a text that ends with a zero. -/
structure At (n : ℕ) (tok : Tokener δ) (str done : List UInt8) : Prop where
  strict : tok.strict = strict
  err : tok.err = .success
  room : tok.maxDepth = tok.depth + n
  some_level : 0 < n
  split : done ++ str = text ++ 0 :: beyond
  plain : 0 ∉ done
  whole : 0 ∉ text

/-- A call in which the text is read. -/
def Reading (p : Parse δ) : Prop :=
  ∃ n done, At strict text beyond n p.tok p.str done ∧
    Stage libc strict maxDepth n p.tok p.obj p.str done

/-- A round goes on reading, or ends: successfully only with a value of the text. -/
def Sound : Round δ → Prop
  | .inl p => Reading libc strict maxDepth text beyond p
  | .inr s => s.error = .success → Accepted libc strict maxDepth text s.tok.top.current

end Stages

/-! ### Small facts -/

section Facts

variable {libc : Libc δ} {strict : Bool} {maxDepth n : ℕ} {tok tok' : Tokener δ} {obj v : Json δ}
  {c : UInt8} {p : Place} {name : Option (List UInt8)}
  {text beyond done pre w g str rest : List UInt8} {below : List (Level δ)}

theorem Gap.append {g g' : List UInt8} (gap : Gap g) (gap' : Gap g') : Gap (g ++ g') := by
  induction gap' with
  | nil => rwa [List.append_nil]
  | space _ space ih =>
    rw [← List.append_assoc]
    exact ih.space space
  | block _ comment ih =>
    rw [← List.append_assoc]
    exact ih.block comment
  | line _ comment ih =>
    rw [← List.append_assoc]
    exact ih.line comment

theorem Ahead.of_other (other : ¬ v.IsNumber) : Ahead v g str :=
  fun number => absurd number other

theorem Ahead.of_gap (some_gap : g ≠ []) : Ahead v g str := fun _ empty => absurd empty some_gap

theorem Context.gap (context : Context libc strict maxDepth n below pre) (gap : Gap g) :
    Context libc strict maxDepth n below (pre ++ g) := by
  cases context with
  | bottom before => exact .bottom (before.append gap)
  | array context reads before gap' =>
    rw [List.append_assoc, List.append_assoc]
    exact .array context reads before (gap'.append gap)
  | object context reads gap' =>
    rw [List.append_assoc, List.append_assoc]
    exact .object context reads (gap'.append gap)

theorem Context.opened (context : Context libc strict maxDepth n below pre) :
    Opened libc strict maxDepth n pre := by
  induction context with
  | bottom gap => exact .bottom gap
  | array _ reads before gap ih => exact .array ih reads before gap
  | object _ reads gap ih => exact .object ih reads gap

/-- The places with what the top level holds there. -/
inductive Shape : Place → Option (List UInt8) → Json δ → Prop
  | value {v : Json δ} : Shape .value none v
  | array {p : Place} {items : List (Json δ)} :
      p = .item ∨ BeforeItem p → Shape p none (.array items)
  | object {p : Place} {members : List (List UInt8 × Json δ)} :
      p = .member ∨ BeforeName p → Shape p none (.object members)
  | member {p : Place} {key : List UInt8} {members : List (List UInt8 × Json δ)} :
      p = .name ∨ p = .colon → Shape p (some key) (.object members)

theorem Reads.shape (reads : Reads libc strict n p name w v) : Shape p name v := by
  induction reads with
  | null | boolean | int | double | string | closeArray | closeObject => exact .value
  | openArray => exact .array (.inr (.inl rfl))
  | item => exact .array (.inl rfl)
  | itemComma _ _ ih =>
    cases ih with
    | array => exact .array (.inr (.inr rfl))
    | object place => simp [BeforeName] at place
  | openObject => exact .object (.inr (.inl rfl))
  | name => exact .member (.inl rfl)
  | colon _ _ ih =>
    cases ih with
    | array place => simp [BeforeItem] at place
    | object place => simp [BeforeName] at place
    | member => exact .member (.inr rfl)
  | member => exact .object (.inl rfl)
  | memberComma _ _ ih =>
    cases ih with
    | array place => simp [BeforeItem] at place
    | object => exact .object (.inr (.inr rfl))

theorem Reads.no_name (reads : Reads libc strict n .value name w v) : name = none := by
  cases reads.shape with
  | value => rfl
  | array => rfl
  | object => rfl
  | member place => simp at place

/-- Only a complete value has come to the last state. -/
theorem Place.eq_value_of_state {p : Place} (finish : p.state = .finish) : p = .value := by
  cases p <;> first | rfl | cases finish

theorem Stage.of_eq {done' : List UInt8} (stage : Stage libc strict maxDepth n tok obj str done)
    (same : done = done') : Stage libc strict maxDepth n tok obj str done' := same ▸ stage

/-- What has been read is a part of the text in front of the zero. -/
theorem split_at_zero (split : done ++ str = text ++ 0 :: beyond) (plain : 0 ∉ done)
    (whole : 0 ∉ text) : ∃ r, text = done ++ r ∧ str = r ++ 0 :: beyond := by
  obtain ⟨r, rfl, right⟩ | ⟨r, rfl, right⟩ := List.append_eq_append_iff.mp split
  · exact ⟨r, rfl, right⟩
  · cases r with
    | nil => exact ⟨[], by simp, by simpa using right.symm⟩
    | cons b r =>
      obtain ⟨rfl, -⟩ := List.cons.inj right
      exact absurd plain (by simp)

end Facts

/-! ### Rounds -/

section Rounds

variable {libc : Libc δ} {strict : Bool} {maxDepth n : ℕ} {tok tok' : Tokener δ} {obj v : Json δ}
  {c : UInt8} {s : State} {p : Place} {name : Option (List UInt8)}
  {text beyond done pre w g rest : List UInt8}

theorem sound_fail {e : Error} (is_error : e ≠ .success) :
    Sound libc strict maxDepth text beyond (fail tok e c rest) := by
  intro success
  unfold Stop.error at success
  split_ifs at success
  exact absurd success is_error

theorem sound_eof (state : tok.top.state ≠ .finish) (saved : tok.top.savedState ≠ .finish) :
    Sound libc strict maxDepth text beyond (.inr ⟨tok, rest, true⟩) := by
  intro success
  rw [Stop.error, if_pos ⟨rfl, state, saved⟩] at success
  cases success

theorem At.exists_succ {str : List UInt8} (here : At strict text beyond n tok str done) :
    ∃ m, n = m + 1 :=
  Nat.exists_eq_succ_of_ne_zero here.some_level.ne'

theorem At.read {str u : List UInt8} (here : At strict text beyond n tok (u ++ str) done)
    (frame : Frame tok tok') (plain : 0 ∉ u) : At strict text beyond n tok' str (done ++ u) where
  strict := frame.strict.trans here.strict
  err := frame.err.trans here.err
  room := by
    rw [frame.maxDepth, Tokener.depth, frame.below]
    exact here.room
  some_level := here.some_level
  split := by
    rw [List.append_assoc]
    exact here.split
  plain := by simp [here.plain, plain]
  whole := here.whole

theorem At.redo (here : At strict text beyond n tok (c :: rest) done) (frame : Frame tok tok')
    (stage : Stage libc strict maxDepth n tok' obj (c :: rest) done) :
    Sound libc strict maxDepth text beyond (redoChar tok' obj c rest) := by
  have same : At strict text beyond n tok' (c :: rest) (done ++ []) :=
    At.read (u := []) here frame (by simp)
  rw [List.append_nil] at same
  exact ⟨n, done, same, stage⟩

theorem At.advance (here : At strict text beyond n tok (c :: rest) done) (frame : Frame tok tok')
    (stage : c ≠ 0 → Stage libc strict maxDepth n tok' obj rest (done ++ [c]))
    (ended : c = 0 → Sound libc strict maxDepth text beyond (.inr ⟨tok', rest, true⟩)) :
    Sound libc strict maxDepth text beyond (advance tok' obj c rest) := by
  rw [JsonC.advance]
  split_ifs with zero
  · exact ended zero
  · have plain : 0 ∉ [c] := by simpa using Ne.symm zero
    exact ⟨n, done ++ [c], At.read (u := [c]) here frame plain, stage zero⟩

/-! #### White space and comments -/

theorem eatws_sound (here : At strict text beyond n tok (c :: rest) (pre ++ (w ++ g)))
    (context : Context libc strict maxDepth n tok.below pre)
    (begun : Begun libc strict n s name w v) (gap : Gap g)
    (top : tok.top = ⟨.eatws, s, v, name⟩) (ahead : Ahead v g (c :: rest)) :
    Sound libc strict maxDepth text beyond (switch libc plainLoop tok obj c rest) := by
  rw [switch_eatws _ _ _ (by rw [top])]
  split_ifs with space slash
  · refine here.advance (.refl tok) (fun _ => ?_) fun zero => absurd zero (isspace_ne_zero space)
    refine .of_eq (.skip context begun (.gap (gap.space space)) top ?_) (by simp)
    exact .of_gap (by simp)
  · subst slash
    refine here.advance ⟨rfl, rfl, rfl, rfl⟩ (fun _ => ?_) (fun zero => absurd zero (by decide))
    refine .of_eq (.skip context begun (.comment gap .slash) ?_ ?_) (by simp)
    · simp [Tokener.enter, top]
    · exact .of_gap (by simp)
  · refine here.redo ⟨rfl, rfl, rfl, rfl⟩ (.place context begun gap ?_ ahead ?_)
    · simp [Tokener.enter, top]
    · rintro b is_head
      cases is_head
      exact ⟨by simpa using space, slash⟩

/-- The text has been read. -/
theorem At.all_read (here : At strict text beyond n tok (0 :: rest) done) : text = done := by
  obtain ⟨r, is_text, is_rest⟩ := split_at_zero here.split here.plain here.whole
  cases r with
  | nil => rw [is_text, List.append_nil]
  | cons b r =>
    obtain ⟨rfl, -⟩ := List.cons.inj is_rest
    exact absurd here.whole (by simp [is_text])

section Comments

variable {q : CommentPlace} {x : List UInt8}
  (here : At strict text beyond n tok (c :: rest) (pre ++ (w ++ (g ++ x))))
  (context : Context libc strict maxDepth n tok.below pre) (begun : Begun libc strict n s name w v)
  (gap : Gap g) (comment : Comment q x) (top : tok.top = ⟨q.state, s, v, name⟩)

include here context begun gap comment top

/-- A text that ends inside a comment is accepted if the comment stands behind a value. -/
theorem comment_eof (slash : q ≠ .slash) {s'' : State}
    (top' : tok'.top = { tok.top with state := s'' }) (state : s'' ≠ .finish) (zero : c = 0) :
    Sound libc strict maxDepth text beyond (.inr ⟨tok', rest, true⟩) := by
  subst zero
  by_cases finish : s = .finish
  · intro _
    rw [here.all_read, top', top]
    cases begun with
    | start => cases finish
    | reads reads =>
      obtain rfl := Place.eq_value_of_state finish
      cases reads.no_name
      exact .comment context.opened reads gap comment slash
  · exact sound_eof (by rw [top']; exact state) (by rw [top', top]; exact finish)

/-- A character of a comment. -/
theorem comment_more (frame : Frame tok tok') (slash : q ≠ .slash) {s'' : State}
    (top' : tok'.top = { tok.top with state := s'' }) (state : s'' ≠ .finish)
    (more : c ≠ 0 → Skip s'' (g ++ (x ++ [c]))) :
    Sound libc strict maxDepth text beyond (advance tok' obj c rest) := by
  refine here.advance frame (fun nonzero => ?_)
    (comment_eof here context begun gap comment top slash top' state)
  rw [← frame.below] at context
  refine .of_eq (.skip context begun (more nonzero) (by rw [top', top]) ?_) (by simp)
  exact .of_gap (by simp)

theorem comment_sound :
    Sound libc strict maxDepth text beyond (switch libc plainLoop tok obj c rest) := by
  have is_state : tok.top.state = q.state := by rw [top]
  cases q with
  | slash =>
    cases comment
    rw [switch, is_state]
    dsimp only [CommentPlace.state, commentStartState]
    have opens {q : CommentPlace} (comment : Comment q [0x2F, c]) (nonzero : c ≠ 0) :
        Sound libc strict maxDepth text beyond
          (advance ((tok.enter q.state).append [c]) obj c rest) := by
      refine here.advance ⟨rfl, rfl, rfl, rfl⟩ (fun _ => ?_) fun zero => absurd zero nonzero
      refine .of_eq (.skip context begun (.comment gap comment) ?_ ?_) (by simp)
      · simp [Tokener.enter, Tokener.append, top]
      · exact .of_gap (by simp)
    split_ifs with star slash
    · subst star
      exact opens .block (by decide)
    · subst slash
      exact opens .line (by decide)
    · exact sound_fail (by decide)
  | block =>
    have stays : (tok.append [c]).top = { tok.top with state := CommentPlace.block.state } := by
      rw [← is_state]
      rfl
    rw [switch_comment _ _ _ is_state]
    split_ifs with no_star
    · exact comment_more here context begun gap comment top ⟨rfl, rfl, rfl, rfl⟩ (by decide) stays
        (by decide) fun nonzero => .comment gap (comment.inBlock no_star nonzero)
    · obtain rfl : c = 0x2A := by simpa using no_star
      exact comment_more here context begun gap comment top ⟨rfl, rfl, rfl, rfl⟩ (by decide) rfl
        (by decide) fun _ => .comment gap comment.star
  | star =>
    rw [switch, is_state]
    dsimp only [CommentPlace.state, commentEndState]
    -- Another star does not close the comment with the slash behind it.
    split_ifs with slash
    · subst slash
      refine comment_more here context begun gap comment top ⟨rfl, rfl, rfl, rfl⟩ (by decide) rfl
        (by decide) fun _ => .gap (gap.block comment)
    · exact comment_more here context begun gap comment top ⟨rfl, rfl, rfl, rfl⟩ (by decide) rfl
        (by decide) fun nonzero => .comment gap (comment.again slash nonzero)
  | line =>
    have stays : (tok.append [c]).top = { tok.top with state := CommentPlace.line.state } := by
      rw [← is_state]
      rfl
    rw [switch_commentEol _ _ _ is_state]
    split_ifs with no_newline
    · exact comment_more here context begun gap comment top ⟨rfl, rfl, rfl, rfl⟩ (by decide) stays
        (by decide) fun nonzero => .comment gap (comment.inLine no_newline nonzero)
    · obtain rfl : c = 0x0A := by simpa using no_newline
      exact comment_more here context begun gap comment top ⟨rfl, rfl, rfl, rfl⟩ (by decide) rfl
        (by decide) fun _ => .gap (gap.line comment)

end Comments

/-! #### Values -/

/-- A quotation mark opens a string or a name. -/
theorem quote_sound {h : List UInt8} (here : At strict text beyond n tok (c :: rest) (pre ++ h))
    (context : Context libc strict maxDepth n tok.below pre)
    (opening : Opening libc strict n s tok.top.current h) (no_name : tok.top.objFieldName = none)
    (saved : tok.top.savedState ≠ .finish) (quote : Quote c) :
    Sound libc strict maxDepth text beyond
      (advance { tok.enter s with quoteChar := c, pb := [] } obj c rest) := by
  refine here.advance ⟨rfl, rfl, rfl, rfl⟩ (fun _ => ?_) fun zero => ?_
  · exact .of_eq (.quoted ⟨context, opening, no_name, quote, .nil⟩ rfl saved
      (absurd · Bool.false_ne_true)) (by simp)
  · subst zero
    exact absurd quote (by simp [Quote])

theorem start_sound (here : At strict text beyond n tok (c :: rest) (pre ++ g))
    (context : Context libc strict maxDepth n tok.below pre) (gap : Gap g)
    (top : tok.top = ⟨.start, .start, .null, none⟩) :
    Sound libc strict maxDepth text beyond (startState tok obj c rest) := by
  have context := context.gap gap
  obtain ⟨m, rfl⟩ := here.exists_succ
  unfold startState
  split_ifs with brace bracket is_null quote is_boolean is_number
  · subst brace
    refine here.advance ⟨rfl, rfl, rfl, rfl⟩ (fun _ => ?_) fun zero => absurd zero (by decide)
    refine .of_eq (.skip context (.reads .openObject) (.gap .nil) ?_ (.of_other id)) (by simp)
    simp [Tokener.put, Tokener.skipTo, top]
  · subst bracket
    refine here.advance ⟨rfl, rfl, rfl, rfl⟩ (fun _ => ?_) fun zero => absurd zero (by decide)
    refine .of_eq (.skip context (.reads .openArray) (.gap .nil) ?_ (.of_other id)) (by simp)
    simp [Tokener.put, Tokener.skipTo, top]
  · refine here.redo ⟨rfl, rfl, rfl, rfl⟩ (.of_eq (.null context ?_ rfl ?_) (by simp))
    · simp [Tokener.enter, top]
    · simp
  · have opening : Opening libc strict (m + 1) .string tok.top.current [] := by
      rw [top]
      exact .string
    have saved : tok.top.savedState ≠ .finish := by simp [top]
    rw [← List.append_nil (pre ++ g)] at here
    exact quote_sound here context opening (by rw [top]) saved quote
  · refine here.redo ⟨rfl, rfl, rfl, rfl⟩ (.of_eq (.boolean true context ?_ rfl ?_) (by simp))
    · simp [Tokener.enter, top]
    · simp
  · refine here.redo ⟨rfl, rfl, rfl, rfl⟩
      (.of_eq (.number context ?_ rfl (by simp) ⟨c, rfl, is_number⟩) (by simp))
    simp [Tokener.enter, top]
  · exact sound_fail (by decide)

/-- A value that has been read leads to its level's end. -/
theorem finish_stage (here : At strict text beyond n tok (c :: rest) (pre ++ w))
    (context : Context libc strict maxDepth n tok.below pre)
    (reads : Reads libc strict n .value none w v) (frame : Frame tok tok')
    (top : tok'.top = ⟨.eatws, .finish, v, none⟩) (ahead : Ahead v [] (c :: rest)) :
    Sound libc strict maxDepth text beyond (redoChar tok' obj c rest) := by
  rw [← frame.below] at context
  exact here.redo frame (.of_eq (.skip context (.reads reads) (.gap .nil) top ahead) (by simp))

/-- As much of a word as has been compared. -/
theorem spelled_of_take {word pb : List UInt8} {k : ℕ} (length : word.length = k)
    (short : pb.length ≤ k)
    (same : ((pb ++ [c]).map tolower).take (min (pb.length + 1) k) =
      word.take (min (pb.length + 1) k)) :
    (pb.length = k → pb.map tolower = word) ∧
      (pb.length ≠ k → (pb ++ [c]).map tolower <+: word) := by
  constructor
  · intro all
    rw [Nat.min_eq_right (by omega), List.map_append, List.take_append_of_le_length (by simp [all]),
      List.take_of_length_le (by simp [all]), List.take_of_length_le (by omega)] at same
    exact same
  · intro less
    rw [Nat.min_eq_left (by omega), List.take_of_length_le (by simp)] at same
    rw [same]
    exact List.take_prefix _ _

/-- A letter of a word. -/
theorem letter_sound {word : List UInt8}
    (here : At strict text beyond n tok (c :: rest) (pre ++ tok.pb))
    (plain : 0 ∉ word) (spelled : (tok.pb ++ [c]).map tolower <+: word)
    (stage : Stage libc strict maxDepth n { tok.append [c] with stPos := tok.pb.length + 1 } obj
      rest (pre ++ (tok.pb ++ [c]))) :
    Sound libc strict maxDepth text beyond
      (advance { tok.append [c] with stPos := tok.pb.length + 1 } obj c rest) := by
  refine here.advance ⟨rfl, rfl, rfl, rfl⟩ (fun _ => stage.of_eq (by simp)) fun zero => ?_
  subst zero
  exact absurd (spelled.subset (by simp [tolower_zero])) plain

theorem null_sound (here : At strict text beyond n tok (c :: rest) (pre ++ tok.pb))
    (context : Context libc strict maxDepth n tok.below pre)
    (top : tok.top = ⟨.null, .start, .null, none⟩) (pos : tok.stPos = tok.pb.length)
    (spelled : tok.pb.map tolower <+: ascii "null") :
    Sound libc strict maxDepth text beyond (switch libc plainLoop tok obj c rest) := by
  obtain ⟨m, rfl⟩ := here.exists_succ
  have short : tok.pb.length ≤ 4 := by
    rw [← List.length_map]
    exact spelled.length_le
  rw [switch_null _ _ _ (by rw [top]), pos]
  split_ifs with same all
  · have word := (spelled_of_take (k := 4) rfl short same).1 all
    refine finish_stage here context (.null word) ⟨rfl, rfl, rfl, rfl⟩ ?_ (.of_other id)
    simp [Tokener.put, Tokener.skipTo, Tokener.append, top]
  · have more := (spelled_of_take (k := 4) rfl short same).2 all
    refine letter_sound here (by decide) more ?_
    exact .null context top (by simp [Tokener.append]) more
  · exact sound_fail (by decide)

theorem boolean_sound {b : Bool} (here : At strict text beyond n tok (c :: rest) (pre ++ tok.pb))
    (context : Context libc strict maxDepth n tok.below pre)
    (top : tok.top = ⟨.boolean, .start, .null, none⟩) (pos : tok.stPos = tok.pb.length)
    (spelled : tok.pb.map tolower <+: ascii (if b then "true" else "false")) :
    Sound libc strict maxDepth text beyond (switch libc plainLoop tok obj c rest) := by
  obtain ⟨m, rfl⟩ := here.exists_succ
  have finish (b : Bool) (word : tok.pb.map tolower = ascii (if b then "true" else "false")) :
      Sound libc strict maxDepth text beyond
        (redoChar (((tok.append [c]).put (.boolean b)).skipTo .finish) obj c rest) := by
    refine finish_stage here context (.boolean b word) ⟨rfl, rfl, rfl, rfl⟩ ?_ (.of_other id)
    simp [Tokener.put, Tokener.skipTo, Tokener.append, top]
  have letter (b : Bool)
      (more : (tok.pb ++ [c]).map tolower <+: ascii (if b then "true" else "false")) :
      Sound libc strict maxDepth text beyond
        (advance { tok.append [c] with stPos := tok.pb.length + 1 } obj c rest) :=
    letter_sound here (by cases b <;> decide) more
      (.boolean b context top (by simp [Tokener.append]) more)
  have short : tok.pb.length ≤ 5 := by
    rw [← List.length_map]
    cases b with
    | true => exact spelled.length_le.trans (by decide)
    | false => exact spelled.length_le
  rw [switch_boolean _ _ _ (by rw [top]), pos]
  split_ifs with is_true all is_false all
  · exact finish true ((spelled_of_take (k := 4) rfl (le_of_eq all) is_true).1 all)
  · have short : tok.pb.length ≤ 4 := by
      cases b with
      | true =>
        rw [← List.length_map]
        exact spelled.length_le
      | false =>
        -- A letter of the other word would have been found out.
        by_contra long
        refine not_true_of_false (by omega) ?_ (by omega : 0 < tok.pb.length) is_true
        rw [List.map_append, List.take_append_of_le_length (by simp),
          List.take_of_length_le (by simp), List.prefix_iff_eq_take.mp spelled, List.length_map]
        rfl
    exact letter true ((spelled_of_take (k := 4) rfl short is_true).2 all)
  · exact finish false ((spelled_of_take (k := 5) rfl short is_false).1 all)
  · exact letter false ((spelled_of_take (k := 5) rfl short is_false).2 all)
  · exact sound_fail (by decide)

theorem number_sound (here : At strict text beyond n tok (c :: rest) (pre ++ tok.pb))
    (context : Context libc strict maxDepth n tok.below pre)
    (top : tok.top = ⟨.number, .start, .null, none⟩)
    (double : tok.isDouble = tok.pb.any isDoubleChar)
    (number : ∀ c ∈ tok.pb, c ∈ numberChars)
    (first : ∃ b ∈ (tok.pb ++ c :: rest).head?, isdigit b ∨ b = 0x2D) :
    Sound libc strict maxDepth text beyond (switch libc plainLoop tok obj c rest) := by
  obtain ⟨m, rfl⟩ := here.exists_succ
  rw [switch_number _ _ _ (by rw [top])]
  split_ifs with is_number
  · refine here.advance ⟨rfl, rfl, rfl, rfl⟩ (fun _ => ?_) fun zero => absurd zero is_number.1
    refine .of_eq (.number context top ?_ ?_ ?_) (List.append_assoc _ _ _).symm
    · simp [Tokener.append, double]
    · simpa [Tokener.append, or_imp, forall_and] using ⟨number, is_number.2⟩
    · simpa [Tokener.append] using first
  · -- The number ends where its characters do, so none of them stands ahead.
    have other : c ∉ numberChars := by
      intro mem
      refine is_number ⟨?_, mem⟩
      rintro rfl
      exact absurd mem (by decide)
    cases value : numberValue libc tok.isDouble (LinuxProgram.Base.text tok.pb) with
    | none => exact sound_fail (by decide)
    | some v =>
      have whole : NumberText tok.pb := by
        refine ⟨?_, number⟩
        cases pb : tok.pb with
        | nil =>
          rw [pb] at first
          obtain ⟨b, is_head, digit⟩ := first
          cases is_head
          exact absurd (number_first _ digit).1 other
        | cons b w =>
          rw [pb] at first
          exact first
      rw [double, text_of_plain (number_plain number), numberValue_eq_some_iff whole] at value
      have reads : Reads libc strict (m + 1) .value none tok.pb v := by
        obtain ⟨i, no_mark, integer, rfl⟩ | ⟨d, some_mark, scanned, rfl⟩ := value
        · exact .int whole no_mark integer
        · exact .double whole some_mark scanned
      refine finish_stage here context reads ⟨rfl, rfl, rfl, rfl⟩ ?_ ?_
      · simp [Tokener.put, Tokener.skipTo, top]
      · rintro - - b is_head
        cases is_head
        exact other

/-! #### Strings -/

theorem Opening.quoted {h : List UInt8} (opening : Opening libc strict n s v h) : Quoted s := by
  cases opening with
  | string => exact .inl rfl
  | name => exact .inr rfl

theorem Quoted.ne_finish (quoted : Quoted s) : s ≠ .finish := by
  obtain rfl | rfl := quoted <;> decide

section Quotes

variable {h k : List UInt8} {alone : Bool}

/-- The closing quotation mark. -/
theorem close_sound
    (here : At strict text beyond n tok (c :: rest) (pre ++ (h ++ tok.quoteChar :: k)))
    (inside : Inside libc strict maxDepth n tok s pre h alone k) (state : tok.top.state = s)
    (closing : c = tok.quoteChar) :
    Sound libc strict maxDepth text beyond (switch libc plainLoop tok obj c rest) := by
  obtain ⟨context, opening, no_name, quote, chars⟩ := inside
  obtain ⟨m, rfl⟩ := here.exists_succ
  have nonzero : c ≠ 0 := by
    rw [closing]
    obtain quote | quote := quote <;> rw [quote] <;> decide
  generalize current : tok.top.current = cur at opening
  cases opening with
  | string =>
    rw [switch_string _ _ _ state, if_neg fun h => h.1 closing, if_pos closing]
    refine here.advance ⟨rfl, rfl, rfl, rfl⟩ (fun _ => ?_) fun zero => absurd zero nonzero
    refine .of_eq (.skip context (.reads (.string quote chars)) (.gap .nil) ?_ (.of_other id)) ?_
    · simp [Tokener.put, Tokener.skipTo, no_name]
    · simp [closing]
  | name reads before gap =>
    rw [switch_objectField _ _ _ state, if_neg fun h => h.1 closing, if_pos closing]
    refine here.advance ⟨rfl, rfl, rfl, rfl⟩ (fun _ => ?_) fun zero => absurd zero nonzero
    refine .of_eq (.skip context (.reads (.name reads before gap quote chars)) (.gap .nil) ?_
      (.of_other id)) ?_
    · simp [current]
    · simp [closing]

theorem quoted_sound
    (here : At strict text beyond n tok (c :: rest) (pre ++ (h ++ tok.quoteChar :: k)))
    (inside : Inside libc strict maxDepth n tok s pre h alone k) (state : tok.top.state = s)
    (saved : tok.top.savedState ≠ .finish)
    (ahead : alone → ∀ more, c :: rest ≠ 0x5C :: 0x75 :: more) :
    Sound libc strict maxDepth text beyond (switch libc plainLoop tok obj c rest) := by
  by_cases closing : c = tok.quoteChar
  · exact close_sound here inside state closing
  have quoted := inside.opening.quoted
  rw [switch_quoted _ _ _ quoted state closing]
  split_ifs with plain
  · refine here.advance ⟨rfl, rfl, rfl, rfl⟩ (fun nonzero => ?_) fun _ => ?_
    · refine .of_eq (.quoted ⟨inside.context, inside.opening, inside.name, inside.quote,
        inside.chars.plain closing plain nonzero⟩ state saved (absurd · Bool.false_ne_true)) ?_
      simp [Tokener.append]
    · exact sound_eof (by rw [Tokener.top_append, state]; exact quoted.ne_finish) saved
  · obtain rfl : c = 0x5C := by simpa using plain
    refine here.advance ⟨rfl, rfl, rfl, rfl⟩ (fun _ => ?_) fun zero => absurd zero (by decide)
    refine .of_eq (.escape ⟨inside.context, inside.opening, inside.name, inside.quote,
      inside.chars⟩ rfl rfl ?_) ?_
    · rintro is_alone more rfl
      exact ahead is_alone more rfl
    · simp [Tokener.skipTo, Tokener.enter]

theorem escape_sound
    (here : At strict text beyond n tok (c :: rest) (pre ++ (h ++ tok.quoteChar :: (k ++ [0x5C]))))
    (inside : Inside libc strict maxDepth n tok s pre h alone k) (saved : tok.top.savedState = s)
    (ahead : alone → ∀ more, c :: rest ≠ 0x75 :: more) :
    Sound libc strict maxDepth text beyond (stringEscapeState tok obj c rest) := by
  unfold stringEscapeState
  cases simple : simpleEscape c with
  | some b =>
    refine here.advance ⟨rfl, rfl, rfl, rfl⟩ (fun _ => ?_) fun zero => ?_
    · refine .of_eq (.quoted ⟨inside.context, inside.opening, inside.name, inside.quote,
        inside.chars.escape (simpleEscape_iff.mp simple)⟩ saved ?_ (absurd · Bool.false_ne_true)) ?_
      · rw [Tokener.enter, Tokener.top_append, saved]
        exact inside.opening.quoted.ne_finish
      · simp [Tokener.append, Tokener.enter]
    · subst zero
      cases simple
  | none =>
    dsimp only
    split_ifs with unicode
    · subst unicode
      -- Behind a high surrogate that stands alone no other escape of this kind begins.
      obtain rfl : alone = false := by
        cases alone with
        | false => rfl
        | true => exact absurd rfl (ahead rfl rest)
      refine here.advance ⟨rfl, rfl, rfl, rfl⟩ (fun _ => ?_) fun zero => absurd zero (by decide)
      refine .of_eq (.unicode ⟨inside.context, inside.opening, inside.name, inside.quote,
        inside.chars⟩ rfl saved rfl rfl) ?_
      simp [Tokener.enter]
    · exact sound_fail (by decide)

theorem Units.plain {hi : Option ℕ} {u bytes : List UInt8} (units : Units hi u bytes alone) :
    0 ∉ u := by
  have digits {a b c d : UInt8} {u : ℕ} (unit : codeUnit a b c d = some u) :
      0 ∉ [a, b, c, d] := by
    obtain ⟨ha, hb, hc, hd⟩ := hexDigits_of_codeUnit unit
    simp [(hex_ne_zero ha).symm, (hex_ne_zero hb).symm, (hex_ne_zero hc).symm,
      (hex_ne_zero hd).symm]
  induction units with
  | last unit | alone unit => exact digits unit
  | more unit _ _ ih =>
    have four := digits unit
    simp only [List.mem_cons, not_or] at four ⊢
    exact ⟨four.1, four.2.1, four.2.2.1, four.2.2.2.1, by decide, by decide, ih⟩

/-- The loop over an escape never ends the call successfully. -/
theorem unicodeLoop_stops {hi : UInt32} {str : List UInt8} {stop : Stop δ}
    (state : tok.top.state = .escapeUnicode) (quoted : Quoted tok.top.savedState)
    (stopped : unicodeLoop tok obj hi str = .inr stop) : stop.error ≠ .success := by
  have saved := quoted.ne_finish
  -- On the text that is left: the loop goes on only behind what it has taken of it.
  induction length : str.length using Nat.strong_induction_on generalizing tok hi str with
  | _ m ih =>
    have step := unicodeLoop_step tok obj hi str
    rw [stopped] at step
    generalize round : (.inr stop : Round δ) = r at step
    cases step with
    | starve same =>
      cases round
      have inside : tok.top.state ≠ .eatws := by rw [state]; decide
      simp [Stop.error, starve, same.top, inside]
    | eof same rest =>
      cases round
      rw [Stop.error, if_pos ⟨rfl, by rw [same.top, state]; decide, by rw [same.top]; exact saved⟩]
      decide
    | fail =>
      cases round
      unfold Stop.error
      split_ifs
      · decide
      · exact (by decide : Error.parseString ≠ .success)
    | @ends tok' c rest same =>
      -- The saved state is that of a string or a name, so the end of the text is an error.
      rw [advance] at round
      split_ifs at round with zero
      cases round
      rw [Stop.error, if_pos]
      · decide
      · simp only [Tokener.enter, same.top]
        exact ⟨trivial, saved, saved⟩
    | @more tok' taken str' same hi' little split shorter =>
      rw [← same.top] at state quoted saved
      exact ih str'.length (length ▸ shorter) state quoted round.symm saved rfl

theorem Inside.unescaped {u bytes : List UInt8}
    (inside : Inside libc strict maxDepth n tok s pre h false k)
    (unescaped : Unescaped tok tok' bytes) (units : Units none u bytes alone) :
    Inside libc strict maxDepth n tok' s pre h alone (k ++ 0x5C :: 0x75 :: u) where
  context := by
    rw [unescaped.below]
    exact inside.context
  opening := by
    rw [unescaped.top]
    exact inside.opening
  name := by
    rw [unescaped.top]
    exact inside.name
  quote := by
    rw [unescaped.quoteChar]
    exact inside.quote
  chars := by
    rw [unescaped.quoteChar, unescaped.pb]
    exact inside.chars.unicode units

theorem unicode_sound
    (here : At strict text beyond n tok (c :: rest)
      (pre ++ (h ++ tok.quoteChar :: (k ++ [0x5C, 0x75]))))
    (inside : Inside libc strict maxDepth n tok s pre h false k)
    (state : tok.top.state = .escapeUnicode) (saved : tok.top.savedState = s)
    (pos : tok.stPos = 0) (zero : tok.ucsChar = 0) :
    Sound libc strict maxDepth text beyond (escapeUnicodeState tok obj c rest) := by
  have quoted := inside.opening.quoted
  cases round : escapeUnicodeState tok obj c rest with
  | inr stop =>
    intro success
    exact absurd success (unicodeLoop_stops state (saved ▸ quoted) round)
  | inl p =>
    obtain ⟨u, bytes, alone, tok', rest', split, rfl, units, ahead, unescaped⟩ :=
      unicodeLoop_units round pos zero
    have top := unescaped.top
    rw [split] at here
    refine ⟨n, _, here.read unescaped.toFrame units.plain, ?_⟩
    refine .of_eq (.quoted (inside.unescaped unescaped units) (by rw [top, ← saved]) ?_ ahead)
      (by simp [unescaped.quoteChar])
    rw [top]
    exact saved ▸ quoted.ne_finish

end Quotes

/-! #### Places -/

/-- A character that leads from one place to another. -/
theorem token_sound {p' : Place} {name' : Option (List UInt8)} {v' : Json δ}
    (here : At strict text beyond n tok (c :: rest) (pre ++ (w ++ g)))
    (context : Context libc strict maxDepth n tok.below pre)
    (reads : Reads libc strict n p' name' (w ++ (g ++ [c])) v') (other : ¬ v'.IsNumber)
    (nonzero : c ≠ 0) (frame : Frame tok tok') (top : tok'.top = ⟨.eatws, p'.state, v', name'⟩) :
    Sound libc strict maxDepth text beyond (advance tok' obj c rest) := by
  rw [← frame.below] at context
  refine here.advance frame (fun _ => ?_) fun zero => absurd zero nonzero
  exact .of_eq (.skip context (.reads reads) (.gap .nil) top fun number => absurd number other)
    (by simp)

/-- A level for a value is pushed, or there is none left. -/
theorem push_sound {add : State} (here : At strict text beyond n tok (c :: rest) done)
    (context : ∀ m, n = m + 1 →
      Context libc strict maxDepth m ({ tok.top with state := add } :: tok.below) done) :
    Sound libc strict maxDepth text beyond (pushState add tok obj c rest) := by
  unfold pushState
  split_ifs with full
  · exact sound_fail (by decide)
  · obtain ⟨m, rfl⟩ := here.exists_succ
    have room := here.room
    refine ⟨m, done, ⟨here.strict, here.err, ?_, ?_, here.split, here.plain, here.whole⟩, ?_⟩
    · simp only [Tokener.push, Tokener.enter, Tokener.depth, List.length_cons] at room ⊢
      omega
    · omega
    · exact .of_eq (.skip (context m rfl) .start (.gap .nil) rfl (.of_other id)) (by simp)

/-- The level of a complete value is popped. -/
theorem At.pop {str : List UInt8} {level : Level δ} {below : List (Level δ)}
    (here : At strict text beyond n tok str done) (is_below : tok.below = level :: below) :
    At strict text beyond (n + 1) { tok with top := level, below := below } str done where
  strict := here.strict
  err := here.err
  room := by
    have room := here.room
    rw [Tokener.depth, is_below, List.length_cons] at room
    simp only [Tokener.depth]
    omega
  some_level := Nat.succ_pos n
  split := here.split
  plain := here.plain
  whole := here.whole

/-- A value is complete: the call ends, or the value is passed to the level below. -/
theorem finish_sound (here : At strict text beyond n tok (c :: rest) (pre ++ (w ++ g)))
    (context : Context libc strict maxDepth n tok.below pre)
    (reads : Reads libc strict n .value none w v) (gap : Gap g)
    (top : tok.top = ⟨.finish, .finish, v, none⟩) (ahead : Ahead v g (c :: rest))
    (solid : Solid c) :
    Sound libc strict maxDepth text beyond (finishState tok c rest) := by
  have current : tok.top.current = v := by rw [top]
  unfold finishState
  generalize is_below : tok.below = below at context
  cases context with
  | bottom before =>
    -- The call ends here, wherever the text does.
    intro _
    obtain ⟨r, is_text, is_rest⟩ := split_at_zero here.split here.plain here.whole
    have ending : Ending v g r := by
      rintro b is_head
      cases r with
      | nil => cases is_head
      | cons b' r =>
        cases is_head
        obtain ⟨rfl, -⟩ := List.cons.inj is_rest
        exact ⟨solid, fun number empty => ahead number empty _ rfl⟩
    rw [is_text, List.append_assoc, List.append_assoc]
    dsimp only
    rw [current]
    exact .value before reads gap ending
  | @array _ below p pre w' g' items context reads' before gap' =>
    have item := reads'.item before gap' reads
    rw [← current] at item
    exact ⟨n + 1, _, here.pop is_below, .of_eq (.item context item gap rfl) (by simp)⟩
  | @object _ below key pre w' g' members context reads' gap' =>
    have member := reads'.member gap' reads
    rw [← current] at member
    exact ⟨n + 1, _, here.pop is_below, .of_eq (.member context member gap rfl) (by simp)⟩

theorem item_sound {items : List (Json δ)}
    (here : At strict text beyond n tok (c :: rest) (pre ++ (w ++ g)))
    (context : Context libc strict maxDepth n tok.below pre)
    (reads : Reads libc strict n .item none w (.array (items ++ [obj]))) (gap : Gap g)
    (top : tok.top = ⟨.arrayAdd, s, .array items, none⟩) :
    Sound libc strict maxDepth text beyond (arrayAddState tok obj c rest) := by
  refine here.redo ⟨rfl, rfl, rfl, rfl⟩ (.skip context (.reads reads) (.gap gap) ?_ (.of_other id))
  simp [Tokener.put, Tokener.skipTo, top, jsonObjectArrayAdd]

theorem member_sound {key : List UInt8} {members : List (List UInt8 × Json δ)}
    (here : At strict text beyond n tok (c :: rest) (pre ++ (w ++ g)))
    (context : Context libc strict maxDepth n tok.below pre)
    (reads : Reads libc strict n .member none w (.object (Members.add members key obj)))
    (gap : Gap g) (top : tok.top = ⟨.objectValueAdd, s, .object members, some key⟩) :
    Sound libc strict maxDepth text beyond (objectValueAddState tok obj c rest) := by
  refine here.redo ⟨rfl, rfl, rfl, rfl⟩ (.skip context (.reads reads) (.gap gap) ?_ (.of_other id))
  simp [top, objectAdd]

section Places

variable (here : At strict text beyond n tok (c :: rest) (pre ++ (w ++ g)))
  (context : Context libc strict maxDepth n tok.below pre)
  (reads : Reads libc strict n p name w v) (gap : Gap g)
  (top : tok.top = ⟨p.state, p.state, v, name⟩)

include here context reads gap top

/-- The places of an array. -/
theorem array_sound {items : List (Json δ)} (is_array : v = .array items) (no_name : name = none)
    (place : p = .item ∨ BeforeItem p) :
    Sound libc strict maxDepth text beyond (switch libc plainLoop tok obj c rest) := by
  subst is_array no_name
  have state : tok.top.state = p.state := by rw [top]
  have close (bracket : c = 0x5D) (lenient : p = .itemComma → strict = false) :
      Sound libc strict maxDepth text beyond (advance (tok.skipTo .finish) obj c rest) := by
    subst bracket
    exact token_sound here context (reads.closeArray lenient gap place) id (by decide)
      ⟨rfl, rfl, rfl, rfl⟩ (by simp [Tokener.skipTo, top])
  -- Behind an element a comma or the bracket follows; elsewhere an element or the bracket.
  obtain rfl | before := place
  · rw [switch, state]
    dsimp only [Place.state, arraySepState]
    split_ifs with bracket comma
    · exact close bracket (absurd · (by decide))
    · subst comma
      exact token_sound here context (reads.itemComma gap) id (by decide) ⟨rfl, rfl, rfl, rfl⟩
        (by simp [Tokener.skipTo, top])
    · exact sound_fail (by decide)
  · have round : switch libc plainLoop tok obj c rest = arrayState tok obj c rest := by
      obtain rfl | rfl := before <;> (rw [switch, state]; rfl)
    rw [round, arrayState]
    split_ifs with bracket lenient
    · exact sound_fail (by decide)
    · refine close bracket fun after => ?_
      rw [state, here.strict] at lenient
      simpa using fun is_strict => lenient ⟨congrArg Place.state after, is_strict⟩
    · refine push_sound here fun m is_succ => ?_
      subst is_succ
      rw [top]
      exact .array context reads before gap

/-- The places of an object outside its members. -/
theorem object_sound {members : List (List UInt8 × Json δ)} (is_object : v = .object members)
    (no_name : name = none) (place : p = .member ∨ BeforeName p) :
    Sound libc strict maxDepth text beyond (switch libc plainLoop tok obj c rest) := by
  subst is_object no_name
  have state : tok.top.state = p.state := by rw [top]
  have close (brace : c = 0x7D) (lenient : p = .memberComma → strict = false) :
      Sound libc strict maxDepth text beyond (advance (tok.skipTo .finish) obj c rest) := by
    subst brace
    exact token_sound here context (reads.closeObject lenient gap place) id (by decide)
      ⟨rfl, rfl, rfl, rfl⟩ (by simp [Tokener.skipTo, top])
  obtain rfl | before := place
  · rw [switch, state]
    dsimp only [Place.state, objectSepState]
    split_ifs with brace comma
    · exact close brace (absurd · (by decide))
    · subst comma
      exact token_sound here context (reads.memberComma gap) id (by decide) ⟨rfl, rfl, rfl, rfl⟩
        (by simp [Tokener.skipTo, top])
    · exact sound_fail (by decide)
  · have round : switch libc plainLoop tok obj c rest = objectFieldStartState tok obj c rest := by
      obtain rfl | rfl := before <;> (rw [switch, state]; rfl)
    rw [round, objectFieldStartState]
    split_ifs with brace lenient quote
    · exact sound_fail (by decide)
    · refine close brace fun after => ?_
      rw [state, here.strict] at lenient
      simpa using fun is_strict => lenient ⟨congrArg Place.state after, is_strict⟩
    · have opening : Opening libc strict n .objectField tok.top.current (w ++ g) := by
        rw [top]
        exact .name reads before gap
      have saved : tok.top.savedState ≠ .finish := by
        obtain rfl | rfl := before <;> simp [top]
      exact quote_sound here context opening (by rw [top]) saved quote
    · exact sound_fail (by decide)

/-- The places between a name and its value. -/
theorem name_sound {key : List UInt8} {members : List (List UInt8 × Json δ)}
    (is_object : v = .object members) (has_name : name = some key)
    (place : p = .name ∨ p = .colon) :
    Sound libc strict maxDepth text beyond (switch libc plainLoop tok obj c rest) := by
  subst is_object has_name
  have state : tok.top.state = p.state := by rw [top]
  obtain rfl | rfl := place
  · rw [switch, state]
    dsimp only [Place.state, objectFieldEndState]
    split_ifs with colon
    · subst colon
      exact token_sound here context (reads.colon gap) id (by decide) ⟨rfl, rfl, rfl, rfl⟩
        (by simp [Tokener.skipTo, top])
    · exact sound_fail (by decide)
  · rw [switch, state]
    refine push_sound here fun m is_succ => ?_
    subst is_succ
    rw [top]
    exact .object context reads gap

/-- A place that the grammar knows, at a character that is part of no gap. -/
theorem place_sound (ahead : Ahead v g (c :: rest)) (solid : Solid c) :
    Sound libc strict maxDepth text beyond (switch libc plainLoop tok obj c rest) := by
  cases reads.shape with
  | value =>
    rw [switch, top]
    exact finish_sound here context reads gap top ahead solid
  | array place => exact array_sound here context reads gap top rfl rfl place
  | object place => exact object_sound here context reads gap top rfl rfl place
  | member place => exact name_sound here context reads gap top rfl rfl place

end Places

end Rounds

/-- A round keeps what has been read in the grammar. It ends successfully only with a value of
the text. -/
theorem plainRound_sound {libc : Libc δ} {strict : Bool} {maxDepth : ℕ} {text beyond : List UInt8}
    {p : Parse δ} (reading : Reading libc strict maxDepth text beyond p) :
    Sound libc strict maxDepth text beyond (plainRound libc p) := by
  obtain ⟨tok, obj, str⟩ := p
  obtain ⟨n, done, here, stage⟩ := reading
  -- There is a character: the zero has not been read.
  obtain ⟨c, rest, rfl⟩ : ∃ c rest, str = c :: rest := by
    obtain ⟨r, -, rfl⟩ := split_at_zero here.split here.plain here.whole
    cases r with
    | nil => exact ⟨0, beyond, rfl⟩
    | cons c r => exact ⟨c, _, rfl⟩
  rw [plainRound_cons]
  cases stage with
  | skip context begun skip top ahead =>
    cases skip with
    | gap gap => exact eatws_sound here context begun gap top ahead
    | comment gap comment => exact comment_sound here context begun gap comment top
  | place context begun gap top ahead solid =>
    cases begun with
    | start =>
      rw [switch, top]
      exact start_sound here context gap top
    | reads reads => exact place_sound here context reads gap top ahead (solid c rfl)
  | null context top pos spelled => exact null_sound here context top pos spelled
  | boolean b context top pos spelled => exact boolean_sound here context top pos spelled
  | number context top double number first =>
    exact number_sound here context top double number first
  | quoted inside state saved ahead => exact quoted_sound here inside state saved ahead
  | escape inside state saved ahead =>
    rw [switch, state]
    exact escape_sound here inside saved ahead
  | unicode inside state saved pos zero =>
    rw [switch, state]
    exact unicode_sound here inside state saved pos zero
  | item context reads gap top =>
    rw [switch, top]
    exact item_sound here context reads gap top
  | member context reads gap top =>
    rw [switch, top]
    exact member_sound here context reads gap top

theorem out_err (input : List UInt8) (s : Stop δ) : (out input s).2.err = s.error := by
  unfold out
  dsimp only
  split_ifs <;> rfl

theorem out_of_success {s : Stop δ} (input : List UInt8) (success : s.error = .success) :
    (out input s).1 = s.tok.top.current := by
  unfold out
  dsimp only
  rw [if_pos success]

section Calls

variable (libc : Libc δ) {tok : Tokener δ} (fresh : tok.top = .fresh) (bottom : tok.below = [])
  (some_level : 0 < tok.maxDepth) (held : tok.pb.length < 2 ^ 29) {text : List UInt8}
  (short : text.length < 2 ^ 26)

include fresh bottom some_level held short

/-- A new tokener is prepared for a text that is not too long. -/
theorem prepared_of_fresh (plain : 0 ∉ text) (beyond : List UInt8) :
    tok.Prepared (text ++ 0 :: beyond) := by
  have simple : tok.top.state.simple := by
    rw [fresh]
    rfl
  refine ⟨⟨?_, ?_, ?_⟩, Tokener.steady_of_simple simple, ?_⟩
  · rw [fresh]
    exact ⟨rfl, trivial⟩
  · rw [bottom]
    exact fun _ mem => absurd mem List.not_mem_nil
  · rwa [Tokener.depth, bottom]
  · rw [Tokener.load_of_simple simple, text_append_zero plain]
    omega

/-- An accepted text is parsed by a new tokener. -/
theorem Accepted.parseEx {v : Json δ} (accepted : Accepted libc tok.strict tok.maxDepth text v)
    (plain : 0 ∉ text) (beyond : List UInt8) :
    ∃ tok', jsonTokenerParseEx libc tok (text ++ 0 :: beyond) = some (v, tok') ∧
      tok'.err = .success := by
  have prepared := prepared_of_fresh fresh bottom some_level held short plain beyond
  have ready : Ready (begin tok (text ++ 0 :: beyond)).tok tok.strict tok.maxDepth := by
    refine ⟨fresh, rfl, ?_⟩
    rw [Tokener.depth, show (begin tok (text ++ 0 :: beyond)).tok.below = [] from bottom]
    exact (Nat.zero_add _).symm
  obtain ⟨s, ended, success, rfl⟩ := accepted.parses ready bottom rfl .null beyond
  refine ⟨(out (text ++ 0 :: beyond) s).2, ?_, ?_⟩
  · rw [parseEx_of_ends prepared ended, ← out_of_success _ success]
  · rw [out_err, success]

omit held short in
/-- A new tokener has read nothing. -/
theorem reading_begin (plain : 0 ∉ text) (beyond : List UInt8) :
    Reading libc tok.strict tok.maxDepth text beyond (begin tok (text ++ 0 :: beyond)) := by
  refine ⟨tok.maxDepth, [], ⟨rfl, rfl, ?_, some_level, rfl, List.not_mem_nil, plain⟩, ?_⟩
  · rw [Tokener.depth, show (begin tok (text ++ 0 :: beyond)).tok.below = [] from bottom]
    exact (Nat.zero_add _).symm
  · have context : Context libc tok.strict tok.maxDepth tok.maxDepth tok.below [] := by
      rw [bottom]
      exact .bottom .nil
    exact .of_eq (.skip context .start (.gap .nil) fresh (.of_other id)) rfl

/-- A text that a new tokener parses is accepted. -/
theorem accepted_of_parseEx {v : Json δ} {tok' : Tokener δ} (plain : 0 ∉ text)
    {beyond : List UInt8}
    (parsed : jsonTokenerParseEx libc tok (text ++ 0 :: beyond) = some (v, tok'))
    (success : tok'.err = .success) : Accepted libc tok.strict tok.maxDepth text v := by
  have prepared := prepared_of_fresh fresh bottom some_level held short plain beyond
  obtain ⟨s, in_time⟩ := plain_ends libc prepared.ok (text ++ 0 :: beyond)
  have ended : Ends (plainRound libc) (begin tok (text ++ 0 :: beyond)) s := ⟨_, in_time⟩
  have is_out : out (text ++ 0 :: beyond) s = (v, tok') :=
    Option.some.inj ((parseEx_of_ends prepared ended).symm.trans parsed)
  have success : s.error = .success := by rw [← out_err (text ++ 0 :: beyond), is_out, success]
  -- Every round keeps what has been read in the grammar; the last one ends with a value of it.
  have step (p p' : Parse δ) (reading : Reading libc tok.strict tok.maxDepth text beyond p)
      (next : plainRound libc p = .inl p') :
      Reading libc tok.strict tok.maxDepth text beyond p' := by
    have sound := plainRound_sound reading
    rwa [next] at sound
  obtain ⟨p, reading, last⟩ :=
    last_round step (reading_begin libc fresh bottom some_level plain beyond) ended
  have sound := plainRound_sound reading
  rw [last] at sound
  rw [show v = s.tok.top.current by rw [← out_of_success _ success, is_out]]
  exact sound success

end Calls

/-- A new tokener, or one that has been reset, parses a text successfully exactly if the grammar
accepts the text, and to the value that the grammar says. What stands behind the text's zero has
no influence. -/
theorem parses_iff_accepted (libc : Libc δ) {tok : Tokener δ} (fresh : tok.top = .fresh)
    (bottom : tok.below = []) (some_level : 0 < tok.maxDepth) (held : tok.pb.length < 2 ^ 29)
    {text : List UInt8} (plain : 0 ∉ text) (short : text.length < 2 ^ 26) (beyond : List UInt8)
    (v : Json δ) :
    (∃ tok', jsonTokenerParseEx libc tok (text ++ 0 :: beyond) = some (v, tok') ∧
        tok'.err = .success) ↔
      Accepted libc tok.strict tok.maxDepth text v := by
  constructor
  · rintro ⟨tok', parsed, success⟩
    exact accepted_of_parseEx libc fresh bottom some_level held short plain parsed success
  · intro accepted
    exact accepted.parseEx libc fresh bottom some_level held short plain beyond

/-- An array that is still open in front of a comment: its element is the value. -/
theorem parses_iff_accepted_of_comment :
    Accepted (⟨fun _ => [], fun _ => none⟩ : Libc Unit) false 32 (ascii "[1 /*") (.int 1) :=
  (@parses_iff_accepted Unit ⟨fun _ => [], fun _ => none⟩ (jsonTokenerNewEx 32 false) rfl rfl
    (by decide) (by decide) (ascii "[1 /*") (by decide) (by decide) [] (.int 1)).mp
    ⟨_, rfl, rfl⟩

/-- `json_tokener_parse_verbose` returns the value of an accepted text, and otherwise null with an
error. -/
theorem parseVerbose_accepted (libc : Libc δ) {text : List UInt8} (plain : 0 ∉ text)
    (short : text.length < 2 ^ 26) (beyond : List UInt8) :
    ∃ v e, jsonTokenerParseVerbose libc (text ++ 0 :: beyond) = some (v, e) ∧
      (e = .success → Accepted libc false 32 text v) ∧
      (e ≠ .success → v = .null ∧ ∀ v', ¬ Accepted libc false 32 text v') := by
  have some_level : 0 < (jsonTokenerNewEx 32 false : Tokener δ).maxDepth := Nat.zero_lt_succ 31
  have held : (jsonTokenerNewEx 32 false : Tokener δ).pb.length < 2 ^ 29 := Nat.two_pow_pos 29
  have prepared : (jsonTokenerNewEx 32 false : Tokener δ).Prepared (text ++ 0 :: beyond) :=
    prepared_of_fresh rfl rfl some_level held short plain beyond
  obtain ⟨v, tok', parsed, -⟩ := parseEx_returns libc prepared
  refine ⟨_, _, by rw [jsonTokenerParseVerbose, parsed]; rfl, fun success => ?_, fun failed => ?_⟩
  · rw [if_pos success]
    exact accepted_of_parseEx libc rfl rfl some_level held short plain parsed success
  · refine ⟨if_neg failed, fun v' accepted => failed ?_⟩
    obtain ⟨tok'', parsed', success⟩ :=
      Accepted.parseEx libc rfl rfl some_level held short accepted plain beyond
    obtain ⟨-, rfl⟩ := Prod.mk.inj (Option.some.inj (parsed.symm.trans parsed'))
    exact success

end LinuxProgram.JsonC
