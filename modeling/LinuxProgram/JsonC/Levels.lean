import LinuxProgram.JsonC.TightLoops

/-!
# The levels of the tokener

In every state that a sequence of calls can reach, each level of the stack is in order:
where an element is added the level holds an array, where a member is added it holds an
object and a name, and the stack has room for the levels. A round keeps this order, and
between two characters it looks at the same one in at most ten states.

A call can succeed before it has left all levels, namely at a terminator inside a comment
behind a value. It resets the levels but not the depth, and so levels below the top can be
fresh ones.

## Main results

* `unicodeLoop_step` — what the loop over an escape does with a character
* `plainRound_keeps` — a round keeps the levels in order and comes closer to the end
-/

namespace LinuxProgram.JsonC

open Base

variable {δ : Type}

/-! ### Order -/

/-- The states that are entered behind white space. -/
def State.resting : State → Bool
  | .start | .finish | .array | .arrayAfterSep | .arraySep | .objectFieldStart
  | .objectFieldStartAfterSep | .objectFieldEnd | .objectValue | .objectSep => true
  | _ => false

/-- What a state needs: an array, an object, or an object and a name. -/
def Level.Fits (l : Level δ) : State → Prop
  | .array | .arrayAdd | .arraySep | .arrayAfterSep => ∃ items, l.current = .array items
  | .objectFieldStart | .objectFieldStartAfterSep | .objectSep | .objectField =>
    ∃ members, l.current = .object members
  | .objectFieldEnd | .objectValue | .objectValueAdd =>
    (∃ members, l.current = .object members) ∧ ∃ name, l.objFieldName = some name
  | _ => True

/-- The level has what its state needs, now or behind white space or an escape. -/
def Level.Ok (l : Level δ) : Prop :=
  match l.state with
  | .eatws | .commentStart | .comment | .commentEol | .commentEnd =>
    l.savedState.resting ∧ l.Fits l.savedState
  | .stringEscape | .escapeUnicode =>
    (l.savedState = .string ∨ l.savedState = .objectField) ∧ l.Fits l.savedState
  | s => l.Fits s

/-- A level that waits for the value above it. -/
def Level.Waiting (l : Level δ) : Prop :=
  (l.state = .arrayAdd ∨ l.state = .objectValueAdd) ∧ l.Fits l.state

/-- A tokener whose levels are in order. -/
structure Tokener.Ok (tok : Tokener δ) : Prop where
  top : tok.top.Ok
  below : ∀ l ∈ tok.below, l.Waiting ∨ l = .fresh
  room : tok.depth < tok.maxDepth

/-! ### Progress -/

/-- In how many states a character is still looked at, at most. -/
def State.rank : State → ℕ
  | .finish => 3
  | .start => 6
  | .null | .boolean | .number => 5
  | .array | .arrayAfterSep | .objectValue => 8
  | .arrayAdd | .objectValueAdd => 2
  | _ => 0

def Level.rank (l : Level δ) : ℕ :=
  if l.state = .eatws then l.savedState.rank + 1 else l.state.rank

/-- The levels below the top that a finished value would start afresh. -/
def Tokener.fresh (tok : Tokener δ) : ℕ := tok.below.countP (·.state = .eatws)

/-- Bounds the rounds that are left. -/
def Parse.measure (p : Parse δ) : ℕ := 10 * (p.str.length + p.tok.fresh) + p.tok.top.rank

theorem State.rank_le (s : State) : s.rank ≤ 8 := by
  cases s <;> decide

theorem Level.rank_le (l : Level δ) : l.rank ≤ 9 := by
  have saved := l.savedState.rank_le
  have state := l.state.rank_le
  unfold Level.rank
  split_ifs <;> omega

theorem Level.rank_eq {l : Level δ} {s : State} (is_state : l.state = s) (other : s ≠ .eatws) :
    l.rank = s.rank := by
  rw [Level.rank, is_state, if_neg other]

/-- What a round does: it keeps the order, and comes below a bound if it goes on. -/
def Round.Keeps (bound : ℕ) : Round δ → Prop
  | .inl p => p.tok.Ok ∧ p.measure < bound
  | .inr s => s.tok.Ok

section Keeps

variable {tok tok' : Tokener δ} {obj obj' : Json δ} {c : UInt8} {rest : List UInt8} {bound : ℕ}

theorem Tokener.Ok.of_top (ok : tok.Ok) (top : tok'.top.Ok) (below : tok'.below = tok.below)
    (maxDepth : tok'.maxDepth = tok.maxDepth) : tok'.Ok where
  top := top
  below := below ▸ ok.below
  room := by rw [maxDepth, Tokener.depth, below]; exact ok.room

theorem keeps_advance (ok : tok'.Ok) (below : tok'.below = tok.below)
    (enough : 10 * (rest.length + 1 + tok.fresh) ≤ bound) :
    (advance tok' obj c rest).Keeps bound := by
  unfold advance
  split_ifs
  · exact ok
  · refine ⟨ok, lt_of_lt_of_le ?_ enough⟩
    have rank := tok'.top.rank_le
    rw [Parse.measure, Tokener.fresh, below, ← Tokener.fresh]
    dsimp only
    omega

theorem keeps_redoChar (ok : tok'.Ok)
    (less : 10 * tok'.fresh + tok'.top.rank < 10 * tok.fresh + tok.top.rank) :
    (redoChar tok' obj' c rest).Keeps (Parse.measure ⟨tok, obj, c :: rest⟩) := by
  refine ⟨ok, ?_⟩
  simp only [Parse.measure]
  omega

theorem keeps_fail (ok : tok.Ok) (e : Error) : (fail tok e c rest).Keeps bound :=
  ok.of_top ok.top rfl rfl

theorem Tokener.Ok.append (ok : tok.Ok) (bytes : List UInt8) : (tok.append bytes).Ok :=
  ok.of_top ok.top rfl rfl

/-- Behind white space, the state that has been saved is entered. -/
theorem resting_ok {l : Level δ} (resting : l.savedState.resting) (fits : l.Fits l.savedState) :
    Level.Ok { l with state := l.savedState } := by
  obtain ⟨_, saved, _, _⟩ := l
  cases saved <;> first | exact fits | cases resting

theorem resting_rank {l : Level δ} (resting : l.savedState.resting) :
    Level.rank { l with state := l.savedState } = l.savedState.rank := by
  refine if_neg fun (eatws : l.savedState = .eatws) => ?_
  rw [eatws] at resting
  cases resting

/-- Behind an escape, the string goes on. -/
theorem string_ok {l : Level δ} (saved : l.savedState = .string ∨ l.savedState = .objectField)
    (fits : l.Fits l.savedState) : Level.Ok { l with state := l.savedState } := by
  obtain ⟨_, saved_state, _, _⟩ := l
  obtain rfl | rfl := saved <;> exact fits

end Keeps

section States

variable {tok tok' : Tokener δ} (ok : tok.Ok) (obj : Json δ) (c : UInt8) (rest : List UInt8)

include ok

/-- A round that takes the character. -/
theorem keeps_break (top : tok'.top.Ok) (below : tok'.below = tok.below)
    (maxDepth : tok'.maxDepth = tok.maxDepth) :
    (advance tok' obj c rest).Keeps (Parse.measure ⟨tok, obj, c :: rest⟩) := by
  apply keeps_advance (ok.of_top top below maxDepth) below
  simp only [Parse.measure, List.length_cons]
  omega

/-- A round that leaves the character to another state of the same level. -/
theorem keeps_redo (top : tok'.top.Ok) (below : tok'.below = tok.below)
    (maxDepth : tok'.maxDepth = tok.maxDepth) (rank : tok'.top.rank < tok.top.rank) :
    (redoChar tok' obj c rest).Keeps (Parse.measure ⟨tok, obj, c :: rest⟩) := by
  apply keeps_redoChar (ok.of_top top below maxDepth)
  rw [Tokener.fresh, below, ← Tokener.fresh]
  omega

theorem eatws_keeps (is_state : tok.top.state = .eatws) :
    (eatwsState plainLoop tok obj c rest).Keeps (Parse.measure ⟨tok, obj, c :: rest⟩) := by
  have fits := ok.top
  rw [Level.Ok, is_state] at fits
  obtain ⟨resting, fits⟩ := fits
  simp only [eatwsState, plainLoop]
  split_ifs
  · exact keeps_break ok _ _ _ ok.top rfl rfl
  · exact keeps_break ok _ _ _ ⟨resting, fits⟩ rfl rfl
  · refine keeps_redo ok _ _ _ (resting_ok resting fits) rfl rfl ?_
    rw [Tokener.enter, resting_rank resting, Level.rank, if_pos is_state]
    exact Nat.lt_succ_self _

theorem start_keeps (is_state : tok.top.state = .start) :
    (startState tok obj c rest).Keeps (Parse.measure ⟨tok, obj, c :: rest⟩) := by
  have less : 5 < tok.top.rank := by
    rw [Level.rank_eq is_state (by decide)]
    decide
  unfold startState
  split_ifs
  · exact keeps_break ok _ _ _ ⟨rfl, [], rfl⟩ rfl rfl
  · exact keeps_break ok _ _ _ ⟨rfl, [], rfl⟩ rfl rfl
  · exact keeps_redo ok _ _ _ trivial rfl rfl less
  · exact keeps_break ok _ _ _ trivial rfl rfl
  · exact keeps_redo ok _ _ _ trivial rfl rfl less
  · exact keeps_redo ok _ _ _ trivial rfl rfl less
  · exact keeps_fail ok _

theorem finish_keeps (is_state : tok.top.state = .finish) :
    (finishState tok c rest).Keeps (Parse.measure ⟨tok, obj, c :: rest⟩) := by
  have rank : tok.top.rank = 3 := Level.rank_eq is_state (by decide)
  have waits := ok.below
  have room := ok.room
  unfold finishState
  cases levels : tok.below with
  | nil => exact ok
  | cons level below =>
    rw [levels, List.forall_mem_cons] at waits
    rw [Tokener.depth, levels, List.length_cons] at room
    -- A level that waits adds the value; a fresh one starts with the same character.
    have ready : level.Ok ∧ 10 * below.countP (·.state = .eatws) + level.rank <
        10 * tok.fresh + tok.top.rank := by
      rw [Tokener.fresh, levels, List.countP_cons, rank]
      obtain ⟨is_add | is_add, fits⟩ | rfl := waits.1
      · rw [Level.Ok, Level.rank, is_add]
        rw [is_add] at fits
        exact ⟨fits, by simp [State.rank]⟩
      · rw [Level.Ok, Level.rank, is_add]
        rw [is_add] at fits
        exact ⟨fits, by simp [State.rank]⟩
      · refine ⟨⟨rfl, trivial⟩, ?_⟩
        simp [Level.fresh, Level.rank, State.rank]
        omega
    exact keeps_redoChar ⟨ready.1, waits.2, Nat.lt_of_succ_lt room⟩ ready.2

theorem null_keeps (is_state : tok.top.state = .null) :
    (nullState tok obj c rest).Keeps (Parse.measure ⟨tok, obj, c :: rest⟩) := by
  have less : 4 < tok.top.rank := by
    rw [Level.rank_eq is_state (by decide)]
    decide
  unfold nullState
  dsimp only
  split_ifs
  · exact keeps_redo ok _ _ _ ⟨rfl, trivial⟩ rfl rfl less
  · exact keeps_break ok _ _ _ ok.top rfl rfl
  · exact keeps_fail (ok.append [c]) _

theorem boolean_keeps (is_state : tok.top.state = .boolean) :
    (booleanState tok obj c rest).Keeps (Parse.measure ⟨tok, obj, c :: rest⟩) := by
  have less : 4 < tok.top.rank := by
    rw [Level.rank_eq is_state (by decide)]
    decide
  unfold booleanState
  dsimp only
  split_ifs
  · exact keeps_redo ok _ _ _ ⟨rfl, trivial⟩ rfl rfl less
  · exact keeps_break ok _ _ _ ok.top rfl rfl
  · exact keeps_redo ok _ _ _ ⟨rfl, trivial⟩ rfl rfl less
  · exact keeps_break ok _ _ _ ok.top rfl rfl
  · exact keeps_fail (ok.append [c]) _

theorem number_keeps (libc : Libc δ) (is_state : tok.top.state = .number) :
    (numberState libc plainLoop tok obj c rest).Keeps (Parse.measure ⟨tok, obj, c :: rest⟩) := by
  have less : 4 < tok.top.rank := by
    rw [Level.rank_eq is_state (by decide)]
    decide
  simp only [numberState, plainLoop]
  split
  · exact keeps_break ok _ _ _ ok.top rfl rfl
  · split
    · exact keeps_redo ok _ _ _ ⟨rfl, trivial⟩ rfl rfl less
    · exact keeps_fail ok _

theorem commentStart_keeps
    (behind : tok.top.savedState.resting ∧ tok.top.Fits tok.top.savedState) :
    (commentStartState tok obj c rest).Keeps (Parse.measure ⟨tok, obj, c :: rest⟩) := by
  unfold commentStartState
  split_ifs
  · exact keeps_break ok _ _ _ behind rfl rfl
  · exact keeps_break ok _ _ _ behind rfl rfl
  · exact keeps_fail ok _

theorem comment_keeps
    (behind : tok.top.savedState.resting ∧ tok.top.Fits tok.top.savedState) :
    (commentState plainLoop tok obj c rest).Keeps (Parse.measure ⟨tok, obj, c :: rest⟩) := by
  simp only [commentState, plainLoop]
  split_ifs
  · exact keeps_break ok _ _ _ ok.top rfl rfl
  · exact keeps_break ok _ _ _ behind rfl rfl

theorem commentEol_keeps
    (behind : tok.top.savedState.resting ∧ tok.top.Fits tok.top.savedState) :
    (commentEolState plainLoop tok obj c rest).Keeps (Parse.measure ⟨tok, obj, c :: rest⟩) := by
  simp only [commentEolState, plainLoop]
  split_ifs
  · exact keeps_break ok _ _ _ ok.top rfl rfl
  · exact keeps_break ok _ _ _ behind rfl rfl

theorem commentEnd_keeps
    (behind : tok.top.savedState.resting ∧ tok.top.Fits tok.top.savedState) :
    (commentEndState tok obj c rest).Keeps (Parse.measure ⟨tok, obj, c :: rest⟩) := by
  unfold commentEndState
  split_ifs
  · exact keeps_break ok _ _ _ behind rfl rfl
  · exact keeps_break ok _ _ _ behind rfl rfl

theorem string_keeps :
    (stringState plainLoop tok obj c rest).Keeps (Parse.measure ⟨tok, obj, c :: rest⟩) := by
  simp only [stringState, plainLoop]
  split_ifs
  · exact keeps_break ok _ _ _ ok.top rfl rfl
  · exact keeps_break ok _ _ _ ⟨rfl, trivial⟩ rfl rfl
  · exact keeps_break ok _ _ _ ⟨.inl rfl, trivial⟩ rfl rfl

theorem objectField_keeps (is_object : ∃ members, tok.top.current = .object members) :
    (objectFieldState plainLoop tok obj c rest).Keeps (Parse.measure ⟨tok, obj, c :: rest⟩) := by
  simp only [objectFieldState, plainLoop]
  split_ifs
  · exact keeps_break ok _ _ _ ok.top rfl rfl
  · exact keeps_break ok _ _ _ ⟨rfl, is_object, _, rfl⟩ rfl rfl
  · exact keeps_break ok _ _ _ ⟨.inr rfl, is_object⟩ rfl rfl

theorem stringEscape_keeps
    (saved : tok.top.savedState = .string ∨ tok.top.savedState = .objectField)
    (fits : tok.top.Fits tok.top.savedState) :
    (stringEscapeState tok obj c rest).Keeps (Parse.measure ⟨tok, obj, c :: rest⟩) := by
  unfold stringEscapeState
  split
  · exact keeps_break ok _ _ _ (string_ok saved fits) rfl rfl
  · split_ifs
    · exact keeps_break ok _ _ _ ⟨saved, fits⟩ rfl rfl
    · exact keeps_fail ok _

theorem push_keeps {add : State} (is_add : add = .arrayAdd ∨ add = .objectValueAdd)
    (fits : tok.top.Fits add) (rank : tok.top.rank = 8) :
    (pushState add tok obj c rest).Keeps (Parse.measure ⟨tok, obj, c :: rest⟩) := by
  unfold pushState
  split_ifs with room
  · exact keeps_fail ok _
  · have waiting : Level.Waiting { tok.top with state := add } := by
      refine ⟨is_add, ?_⟩
      obtain rfl | rfl := is_add <;> exact fits
    refine keeps_redoChar ⟨⟨rfl, trivial⟩, ?_, ?_⟩ ?_
    · exact List.forall_mem_cons.mpr ⟨.inl waiting, ok.below⟩
    · simp only [Tokener.push, Tokener.enter, Tokener.depth, List.length_cons] at room ⊢
      omega
    · rw [rank]
      obtain rfl | rfl := is_add <;>
        simp [Tokener.push, Tokener.enter, Tokener.fresh, Level.fresh, Level.rank, State.rank]

theorem array_keeps (is_array : ∃ items, tok.top.current = .array items)
    (rank : tok.top.rank = 8) :
    (arrayState tok obj c rest).Keeps (Parse.measure ⟨tok, obj, c :: rest⟩) := by
  unfold arrayState
  split_ifs
  · exact keeps_fail ok _
  · exact keeps_break ok _ _ _ ⟨rfl, trivial⟩ rfl rfl
  · exact push_keeps ok _ _ _ (.inl rfl) is_array rank

theorem arrayAdd_keeps (is_array : ∃ items, tok.top.current = .array items)
    (rank : tok.top.rank = 2) :
    (arrayAddState tok obj c rest).Keeps (Parse.measure ⟨tok, obj, c :: rest⟩) := by
  obtain ⟨items, is_array⟩ := is_array
  refine keeps_redo ok _ _ _ ⟨rfl, items ++ [obj], ?_⟩ rfl rfl ?_
  · simp only [Tokener.skipTo, Tokener.put, is_array, jsonObjectArrayAdd]
  · rw [rank]
    exact Nat.one_lt_two

theorem arraySep_keeps (is_array : ∃ items, tok.top.current = .array items) :
    (arraySepState tok obj c rest).Keeps (Parse.measure ⟨tok, obj, c :: rest⟩) := by
  unfold arraySepState
  split_ifs
  · exact keeps_break ok _ _ _ ⟨rfl, trivial⟩ rfl rfl
  · exact keeps_break ok _ _ _ ⟨rfl, is_array⟩ rfl rfl
  · exact keeps_fail ok _

theorem objectFieldStart_keeps (is_object : ∃ members, tok.top.current = .object members) :
    (objectFieldStartState tok obj c rest).Keeps (Parse.measure ⟨tok, obj, c :: rest⟩) := by
  unfold objectFieldStartState
  split_ifs
  · exact keeps_fail ok _
  · exact keeps_break ok _ _ _ ⟨rfl, trivial⟩ rfl rfl
  · exact keeps_break ok _ _ _ is_object rfl rfl
  · exact keeps_fail ok _

theorem objectFieldEnd_keeps (fits : tok.top.Fits .objectValue) :
    (objectFieldEndState tok obj c rest).Keeps (Parse.measure ⟨tok, obj, c :: rest⟩) := by
  unfold objectFieldEndState
  split_ifs
  · exact keeps_break ok _ _ _ ⟨rfl, fits⟩ rfl rfl
  · exact keeps_fail ok _

theorem objectValueAdd_keeps (fits : tok.top.Fits .objectValueAdd) (rank : tok.top.rank = 2) :
    (objectValueAddState tok obj c rest).Keeps (Parse.measure ⟨tok, obj, c :: rest⟩) := by
  obtain ⟨⟨members, is_object⟩, name, named⟩ := fits
  refine keeps_redo ok _ _ _ ⟨rfl, Members.add members name obj, ?_⟩ rfl rfl ?_
  · simp only [is_object, named, objectAdd]
  · rw [rank]
    exact Nat.one_lt_two

theorem objectSep_keeps (is_object : ∃ members, tok.top.current = .object members) :
    (objectSepState tok obj c rest).Keeps (Parse.measure ⟨tok, obj, c :: rest⟩) := by
  unfold objectSepState
  split_ifs
  · exact keeps_break ok _ _ _ ⟨rfl, trivial⟩ rfl rfl
  · exact keeps_break ok _ _ _ ⟨rfl, is_object⟩ rfl rfl
  · exact keeps_fail ok _

end States

/-! ### Escapes -/

section Escapes

variable (tok : Tokener δ) (c : UInt8) (hi : UInt32) (bytes : List UInt8)

@[simp] theorem Tokener.top_append : (tok.append bytes).top = tok.top := rfl

@[simp] theorem Tokener.below_append : (tok.append bytes).below = tok.below := rfl

@[simp] theorem Tokener.maxDepth_append : (tok.append bytes).maxDepth = tok.maxDepth := rfl

@[simp] theorem Tokener.top_digit : (tok.digit c).top = tok.top := rfl

@[simp] theorem Tokener.below_digit : (tok.digit c).below = tok.below := rfl

@[simp] theorem Tokener.maxDepth_digit : (tok.digit c).maxDepth = tok.maxDepth := rfl

@[simp] theorem Tokener.top_combine : (tok.combine hi).top = tok.top := by
  unfold Tokener.combine
  split_ifs <;> rfl

@[simp] theorem Tokener.below_combine : (tok.combine hi).below = tok.below := by
  unfold Tokener.combine
  split_ifs <;> rfl

@[simp] theorem Tokener.maxDepth_combine : (tok.combine hi).maxDepth = tok.maxDepth := by
  unfold Tokener.combine
  split_ifs <;> rfl

@[simp] theorem Tokener.top_abandon : (tok.abandon hi).top = tok.top := by
  unfold Tokener.abandon
  split_ifs <;> rfl

@[simp] theorem Tokener.below_abandon : (tok.abandon hi).below = tok.below := by
  unfold Tokener.abandon
  split_ifs <;> rfl

@[simp] theorem Tokener.maxDepth_abandon : (tok.abandon hi).maxDepth = tok.maxDepth := by
  unfold Tokener.abandon
  split_ifs <;> rfl

end Escapes

theorem Tokener.length_append (tok : Tokener δ) (bytes : List UInt8) :
    (tok.append bytes).pb.length = tok.pb.length + bytes.length :=
  List.length_append

theorem Tokener.length_combine_le (tok : Tokener δ) (hi : UInt32) :
    (tok.combine hi).pb.length ≤ tok.pb.length + 3 := by
  unfold Tokener.combine
  split_ifs
  · exact Nat.le_add_right _ _
  · exact Nat.le_add_right _ _
  · exact (tok.length_append _).le

theorem Tokener.length_abandon_le (tok : Tokener δ) (hi : UInt32) :
    (tok.abandon hi).pb.length ≤ tok.pb.length + 3 := by
  unfold Tokener.abandon
  split_ifs
  · exact Nat.le_add_right _ _
  · exact (tok.length_append _).le

theorem length_unescapedUtf_le (uc : UInt32) : (unescapedUtf uc).length ≤ 4 := by
  unfold unescapedUtf
  split_ifs <;> simp [utf8ReplacementChar]

@[simp] theorem Tokener.stPos_abandon (tok : Tokener δ) (hi : UInt32) :
    (tok.abandon hi).stPos = tok.stPos := by
  unfold Tokener.abandon
  split_ifs <;> rfl

/-- Only registers differ. -/
structure SameLevels (tok tok' : Tokener δ) : Prop where
  top : tok'.top = tok.top
  below : tok'.below = tok.below
  maxDepth : tok'.maxDepth = tok.maxDepth

/-- What the loop over an escape comes to at its next character: what it has appended and taken,
and where it is left with all four digits. -/
inductive UnicodeStep (tok : Tokener δ) (obj : Json δ) (str : List UInt8) : Round δ → Prop
  | starve {tok' : Tokener δ} (same : SameLevels tok tok')
      (little : tok'.pb.length ≤ tok.pb.length + 6) (nonzero : 0 ∉ str)
      (digits : tok.stPos < 4 → tok'.stPos < 4 ∨ [0x5C, 0x75] <:+ str) :
      UnicodeStep tok obj str (.inr (starve tok'))
  | eof {tok' : Tokener δ} {more rest : List UInt8} (same : SameLevels tok tok')
      (little : tok'.pb.length ≤ tok.pb.length + 9) (split : str = 0 :: (more ++ rest))
      (few : more.length ≤ 1)
      (digits : tok.stPos < 4 → tok'.stPos < 4 ∨ [0, 0x5C, 0x75] <:+: str) :
      UnicodeStep tok obj str (.inr ⟨tok', rest, true⟩)
  | fail {c : UInt8} {rest : List UInt8} (split : str = c :: rest) :
      UnicodeStep tok obj str (fail tok .parseString c rest)
  | ends {tok' : Tokener δ} {c : UInt8} {rest : List UInt8} (same : SameLevels tok tok')
      (little : tok'.pb.length ≤ tok.pb.length + 7) (split : str = c :: rest) :
      UnicodeStep tok obj str (advance (tok'.enter tok'.top.savedState) obj c rest)
  | more {tok' : Tokener δ} {taken str' : List UInt8} (same : SameLevels tok tok') (hi : UInt32)
      (little : tok'.pb.length ≤ tok.pb.length + 7 * taken.length) (split : str = taken ++ str')
      (shorter : str'.length < str.length) (nonzero : 0 ∉ taken)
      (digits : tok.stPos < 4 → tok'.stPos < 4) :
      UnicodeStep tok obj str (unicodeLoop tok' obj hi str')

theorem unicodeLoop_step (tok : Tokener δ) (obj : Json δ) (hi : UInt32) (str : List UInt8) :
    UnicodeStep tok obj str (unicodeLoop tok obj hi str) := by
  cases str with
  | nil => exact .starve ⟨rfl, rfl, rfl⟩ (Nat.le_add_right _ _) List.not_mem_nil .inl
  | cons c rest =>
    by_cases hex : isHexChar c
    case neg =>
      rw [unicodeLoop, if_neg hex]
      exact .fail rfl
    rw [unicodeLoop, if_pos hex]
    dsimp only
    by_cases four : (tok.digit c).stPos = 4
    · rw [if_pos four]
      have combined : ((tok.digit c).combine hi).pb.length ≤ tok.pb.length + 3 :=
        (tok.digit c).length_combine_le hi
      by_cases high : isHighSurrogate ((tok.digit c).combine hi).ucsChar
      case neg =>
        rw [if_neg high]
        refine @UnicodeStep.ends _ _ _ _ (((tok.digit c).combine hi).append _) _ _
          ⟨by simp, by simp, by simp⟩ ?_ rfl
        have short := length_unescapedUtf_le ((tok.digit c).combine hi).ucsChar
        rw [Tokener.length_append]
        omega
      rw [if_pos high]
      have replaced_length :
          (((tok.digit c).combine hi).append utf8ReplacementChar).pb.length ≤
            tok.pb.length + 6 := by
        rw [Tokener.length_append]
        exact Nat.add_le_add_right combined 3
      have replaced : UnicodeStep tok obj (c :: rest) (advance
          ((((tok.digit c).combine hi).append utf8ReplacementChar).enter
            ((tok.digit c).combine hi).top.savedState) obj c rest) :=
        @UnicodeStep.ends _ _ _ _ (((tok.digit c).combine hi).append utf8ReplacementChar) _ _
          ⟨by simp, by simp, by simp⟩ (by omega) rfl
      -- Behind a high surrogate there may be another escape.
      rcases rest with _ | ⟨b, _ | ⟨u, more⟩⟩
      · exact replaced
      · exact replaced
      · dsimp only
        by_cases pair : b = 0x5C ∧ u = 0x75
        case neg =>
          rw [if_neg pair]
          exact replaced
        rw [if_pos pair]
        obtain ⟨rfl, rfl⟩ := pair
        by_cases zero : c = 0
        · rw [if_pos zero]
          refine @UnicodeStep.eof _ _ _ _ _ [0x5C] _ ⟨by simp, by simp, by simp⟩ ?_
            (by rw [zero]; rfl) (Nat.le_refl _) fun _ => .inr ⟨[], more, by rw [zero]; rfl⟩
          rw [Tokener.length_append]
          exact Nat.add_le_add_right replaced_length 3
        · rw [if_neg zero]
          cases more with
          | nil =>
            refine .starve ⟨by simp, by simp, by simp⟩ replaced_length ?_ fun _ => .inr ⟨[c], rfl⟩
            simpa using Ne.symm zero
          | cons c' more =>
            refine @UnicodeStep.more _ _ _ _ _ [c, 0x5C, 0x75] _ ⟨by simp, by simp, by simp⟩ _ ?_
              rfl (by simp) (by simpa using Ne.symm zero) fun _ => Nat.zero_lt_succ 3
            dsimp only [List.length_cons, List.length_nil]
            omega
    · rw [if_neg four]
      have digits (fewer : tok.stPos < 4) : (tok.digit c).stPos < 4 :=
        Nat.lt_of_le_of_ne fewer four
      have abandoned : ((tok.digit c).abandon hi).pb.length ≤ tok.pb.length + 3 :=
        (tok.digit c).length_abandon_le hi
      by_cases zero : c = 0
      · rw [if_pos zero]
        exact @UnicodeStep.eof _ _ _ _ _ [] _ ⟨by simp, by simp, by simp⟩ (by omega)
          (by rw [zero]; rfl) (Nat.zero_le _) fun fewer =>
            .inl (by rw [Tokener.stPos_abandon]; exact digits fewer)
      · rw [if_neg zero]
        cases rest with
        | nil =>
          refine .starve ⟨by simp, by simp, by simp⟩ (by omega) (by simpa using Ne.symm zero)
            fun fewer => .inl (by rw [Tokener.stPos_abandon]; exact digits fewer)
        | cons c' rest =>
          exact @UnicodeStep.more _ tok _ _ (tok.digit c) [c] _ ⟨rfl, rfl, rfl⟩ hi
            (Nat.le_add_right _ _) rfl (by simp) (by simpa using Ne.symm zero) digits

/-- The loop leaves the levels alone, and enters the saved state at its end. -/
theorem unicodeLoop_keeps {tok : Tokener δ} {bound : ℕ} (ok : tok.Ok)
    (saved : tok.top.savedState = .string ∨ tok.top.savedState = .objectField)
    (fits : tok.top.Fits tok.top.savedState) (obj : Json δ) (hi : UInt32) (str : List UInt8)
    (enough : 10 * (str.length + tok.fresh) ≤ bound) :
    (unicodeLoop tok obj hi str).Keeps bound := by
  induction length : str.length using Nat.strong_induction_on generalizing tok hi str with
  | _ k ih =>
    have stays {tok' : Tokener δ} (same : SameLevels tok tok') : tok'.Ok :=
      ok.of_top (same.top ▸ ok.top) same.below same.maxDepth
    have step := unicodeLoop_step tok obj hi str
    generalize unicodeLoop tok obj hi str = r at step ⊢
    cases step with
    | starve same => exact stays ⟨same.top, same.below, same.maxDepth⟩
    | eof same => exact stays same
    | fail => exact keeps_fail ok _
    | ends same _ split =>
      rw [split] at enough
      refine keeps_advance (ok.of_top ?_ same.below same.maxDepth) same.below enough
      rw [Tokener.enter, same.top]
      exact string_ok saved fits
    | @more tok' taken str' same hi' _ _ shorter =>
      rw [← same.top] at saved fits
      refine ih str'.length (length ▸ shorter) (stays same) saved fits hi' str' ?_ rfl
      have fresh : tok'.fresh = tok.fresh := by rw [Tokener.fresh, same.below, Tokener.fresh]
      omega

/-- A round keeps the levels in order and comes closer to the end. -/
theorem plainRound_keeps (libc : Libc δ) {p : Parse δ} (ok : p.tok.Ok) :
    (plainRound libc p).Keeps p.measure := by
  obtain ⟨tok, obj, _ | ⟨c, rest⟩⟩ := p
  · exact ok.of_top ok.top rfl rfl
  · rw [plainRound, roundBy]
    have fits := ok.top
    rw [Level.Ok] at fits
    -- What the level holds fits its state.
    cases is_state : tok.top.state <;> rw [is_state] at fits <;> rw [switch, is_state]
    case eatws => exact eatws_keeps ok obj c rest is_state
    case start => exact start_keeps ok obj c rest is_state
    case finish => exact finish_keeps ok obj c rest is_state
    case null => exact null_keeps ok obj c rest is_state
    case commentStart => exact commentStart_keeps ok obj c rest fits
    case comment => exact comment_keeps ok obj c rest fits
    case commentEol => exact commentEol_keeps ok obj c rest fits
    case commentEnd => exact commentEnd_keeps ok obj c rest fits
    case string => exact string_keeps ok obj c rest
    case stringEscape => exact stringEscape_keeps ok obj c rest fits.1 fits.2
    case escapeUnicode =>
      apply unicodeLoop_keeps ok fits.1 fits.2
      simp [Parse.measure]
    case boolean => exact boolean_keeps ok obj c rest is_state
    case number => exact number_keeps ok obj c rest libc is_state
    case array => exact array_keeps ok obj c rest fits (Level.rank_eq is_state (by decide))
    case arrayAdd => exact arrayAdd_keeps ok obj c rest fits (Level.rank_eq is_state (by decide))
    case arraySep => exact arraySep_keeps ok obj c rest fits
    case objectFieldStart => exact objectFieldStart_keeps ok obj c rest fits
    case objectField => exact objectField_keeps ok obj c rest fits
    case objectFieldEnd => exact objectFieldEnd_keeps ok obj c rest fits
    case objectValue =>
      exact push_keeps ok obj c rest (.inr rfl) fits (Level.rank_eq is_state (by decide))
    case objectValueAdd =>
      exact objectValueAdd_keeps ok obj c rest fits (Level.rank_eq is_state (by decide))
    case objectSep => exact objectSep_keeps ok obj c rest fits
    case arrayAfterSep =>
      exact array_keeps ok obj c rest fits (Level.rank_eq is_state (by decide))
    case objectFieldStartAfterSep => exact objectFieldStart_keeps ok obj c rest fits

theorem plainRound_ok (libc : Libc δ) (p p' : Parse δ) (ok : p.tok.Ok)
    (goes : plainRound libc p = .inl p') : p'.tok.Ok ∧ p'.measure < p.measure := by
  have keeps := plainRound_keeps libc ok
  rwa [goes] at keeps

end LinuxProgram.JsonC
