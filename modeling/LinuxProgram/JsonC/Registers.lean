import LinuxProgram.JsonC.Levels

/-!
# The registers of the tokener

The `printbuf` of a tokener grows with the text that is read: by at most seven bytes for
each character that is taken, and nine more where a call ends. The position in an escape
stays below four, unless a text is cut directly behind a `\u`.

## Main definitions

* `Tokener.load` — the bytes in the `printbuf`, and the one that the end of a word adds
* `Tokener.Steady` — an escape that is not complete has fewer than four digits
* `Round.Takes` — what a round takes of the text, and what it does to the registers

## Main results

* `plainRound_takes` — every round of the plain tokener does so
-/

namespace LinuxProgram.JsonC

open Base

variable {δ : Type}

/-- The bytes in the `printbuf`. The character behind `null`, `true` or `false` is appended
before it is looked at once more, so it counts from the first letter on. -/
def Tokener.load (tok : Tokener δ) : ℕ :=
  tok.pb.length +
    if (tok.top.state = .null ∨ tok.top.state = .boolean) ∧ tok.stPos ≠ 0 then 1 else 0

/-- The shift of the next digit is not by a negative count. -/
def Tokener.Steady (tok : Tokener δ) : Prop := tok.top.state = .escapeUnicode → tok.stPos < 4

/-- The text does not end with a `\u`, nor is there one behind a zero. -/
def Uncut (str : List UInt8) : Prop := ¬ [0x5C, 0x75] <:+ str ∧ ¬ [0, 0x5C, 0x75] <:+: str

/-- What a round takes of the text, and what it does to the registers. -/
def Round.Takes (tok : Tokener δ) (str : List UInt8) : Round δ → Prop
  | .inl p => ∃ taken, str = taken ++ p.str ∧ 0 ∉ taken ∧
      p.tok.load ≤ tok.load + 7 * taken.length ∧ p.tok.Steady
  | .inr s => ∃ taken more, str = taken ++ (more ++ s.str) ∧ 0 ∉ taken ∧ more.length ≤ 2 ∧
      s.tok.load ≤ tok.load + 7 * taken.length + 9 ∧ (Uncut str → s.tok.Steady)

/-- The states that append nothing for a word, and are in no escape. -/
def State.simple (s : State) : Bool := s ≠ .null && s ≠ .boolean && s ≠ .escapeUnicode

section Load

variable {tok : Tokener δ} {s : State}

theorem Tokener.length_le_load (tok : Tokener δ) : tok.pb.length ≤ tok.load := Nat.le_add_right _ _

theorem Tokener.load_le (tok : Tokener δ) : tok.load ≤ tok.pb.length + 1 := by
  unfold Tokener.load
  split_ifs <;> omega

theorem Tokener.load_of_simple (simple : tok.top.state.simple) : tok.load = tok.pb.length := by
  have other : ¬ ((tok.top.state = .null ∨ tok.top.state = .boolean) ∧ tok.stPos ≠ 0) := by
    rintro ⟨is_state | is_state, -⟩ <;> rw [is_state] at simple <;> cases simple
  rw [Tokener.load, if_neg other, Nat.add_zero]

theorem Tokener.load_of_stPos (none_read : tok.stPos = 0) : tok.load = tok.pb.length := by
  rw [Tokener.load, if_neg fun word => word.2 none_read, Nat.add_zero]

theorem Tokener.steady_of_simple (simple : tok.top.state.simple) : tok.Steady := by
  intro is_state
  rw [is_state] at simple
  cases simple

theorem Tokener.steady_of_stPos (none_read : tok.stPos = 0) : tok.Steady := by
  intro _
  rw [none_read]
  exact Nat.zero_lt_succ 3

theorem State.simple_of_resting (resting : s.resting) : s.simple := by
  cases s <;> first | rfl | cases resting

end Load

section Takes

variable {tok tok' : Tokener δ} (obj : Json δ) (c : UInt8) (rest : List UInt8)

theorem takes_advance (load : tok'.load ≤ tok.load + 7) (steady : tok'.Steady) :
    (advance tok' obj c rest).Takes tok (c :: rest) := by
  unfold advance
  split_ifs with zero
  · exact ⟨[], [c], rfl, List.not_mem_nil, Nat.le_succ 1, by dsimp only; omega, fun _ => steady⟩
  · exact ⟨[c], rfl, by simpa using Ne.symm zero, load, steady⟩

theorem takes_redo (load : tok'.load ≤ tok.load) (steady : tok'.Steady) :
    (redoChar tok' obj c rest).Takes tok (c :: rest) :=
  ⟨[], rfl, List.not_mem_nil, load, steady⟩

theorem takes_fail (load : tok'.load ≤ tok.load + 9) (steady : tok'.Steady) (e : Error) :
    (fail tok' e c rest).Takes tok (c :: rest) :=
  ⟨[], [], rfl, List.not_mem_nil, Nat.zero_le _, load, fun _ => steady⟩

/-- A round that takes the character and enters a simple state. -/
theorem takes_break (simple : tok'.top.state.simple)
    (little : tok'.pb.length ≤ tok.pb.length + 7) :
    (advance tok' obj c rest).Takes tok (c :: rest) := by
  refine takes_advance obj c rest ?_ (Tokener.steady_of_simple simple)
  rw [Tokener.load_of_simple simple]
  exact little.trans (Nat.add_le_add_right tok.length_le_load 7)

/-- A round that leaves the character to a simple state. -/
theorem takes_again (simple : tok'.top.state.simple) (little : tok'.pb.length ≤ tok.load) :
    (redoChar tok' obj c rest).Takes tok (c :: rest) := by
  refine takes_redo obj c rest ?_ (Tokener.steady_of_simple simple)
  rwa [Tokener.load_of_simple simple]

end Takes

section States

variable {tok : Tokener δ} (obj : Json δ) (c : UInt8) (rest : List UInt8)

theorem eatws_takes (is_state : tok.top.state = .eatws) (resting : tok.top.savedState.resting) :
    (eatwsState plainLoop tok obj c rest).Takes tok (c :: rest) := by
  have simple : tok.top.state.simple := by rw [is_state]; rfl
  simp only [eatwsState, plainLoop]
  split_ifs
  · exact takes_break obj c rest simple (Nat.le_add_right _ _)
  · exact takes_break obj c rest rfl (Nat.le_trans (Nat.le_add_left 1 6) (Nat.le_add_left _ _))
  · exact takes_again obj c rest (State.simple_of_resting resting) tok.length_le_load

theorem start_takes (is_state : tok.top.state = .start) :
    (startState tok obj c rest).Takes tok (c :: rest) := by
  have simple : tok.top.state.simple := by rw [is_state]; rfl
  have word (s : State) :
      (redoChar { tok.enter s with pb := [], stPos := 0 } obj c rest).Takes tok (c :: rest) := by
    refine takes_redo obj c rest ?_ (Tokener.steady_of_stPos rfl)
    rw [Tokener.load_of_stPos rfl]
    exact Nat.zero_le _
  unfold startState
  split_ifs
  · exact takes_break obj c rest rfl (Nat.le_add_right _ _)
  · exact takes_break obj c rest rfl (Nat.le_add_right _ _)
  · exact word .null
  · exact takes_break obj c rest rfl (Nat.zero_le _)
  · exact word .boolean
  · exact takes_again obj c rest rfl (Nat.zero_le _)
  · exact takes_fail c rest (Nat.le_add_right _ _) (Tokener.steady_of_simple simple) _

/-- The level below waits for a value or is fresh, so it is in a simple state. -/
theorem finish_takes (ok : tok.Ok) (is_state : tok.top.state = .finish) :
    (finishState tok c rest).Takes tok (c :: rest) := by
  have simple : tok.top.state.simple := by rw [is_state]; rfl
  have waits := ok.below
  unfold finishState
  cases levels : tok.below with
  | nil =>
    exact ⟨[], [], rfl, List.not_mem_nil, Nat.zero_le _, Nat.le_add_right _ _,
      fun _ => Tokener.steady_of_simple simple⟩
  | cons level below =>
    rw [levels, List.forall_mem_cons] at waits
    have simple' : level.state.simple := by
      obtain ⟨is_add | is_add, -⟩ | rfl := waits.1
      · rw [is_add]; rfl
      · rw [is_add]; rfl
      · rfl
    exact takes_again _ c rest simple' tok.length_le_load

/-- A word gives way to a simple state only when all its letters have been read. -/
theorem word_takes (is_word : tok.top.state = .null ∨ tok.top.state = .boolean) :
    (∀ v, tok.stPos ≠ 0 →
      (redoChar (((tok.append [c]).put v).skipTo .finish) obj c rest).Takes tok (c :: rest)) ∧
    (advance { tok.append [c] with stPos := tok.stPos + 1 } obj c rest).Takes tok (c :: rest) ∧
    ∀ e, (fail (tok.append [c]) e c rest).Takes tok (c :: rest) := by
  have length : (tok.append [c]).pb.length = tok.pb.length + 1 := tok.length_append [c]
  have other : tok.top.state ≠ .escapeUnicode := by
    obtain is_state | is_state := is_word <;> rw [is_state] <;> decide
  have bound := tok.length_le_load
  refine ⟨fun v begun => takes_again obj c rest rfl ?_, takes_advance obj c rest ?_ ?_, fun e =>
    takes_fail c rest ?_ ?_ e⟩
  · rw [Tokener.load, if_pos ⟨is_word, begun⟩]
    exact length.le
  · refine (Tokener.load_le _).trans ?_
    dsimp only
    omega
  · exact fun escape => absurd escape other
  · refine (Tokener.load_le _).trans ?_
    omega
  · exact fun escape => absurd escape other

theorem null_takes (is_state : tok.top.state = .null) :
    (nullState tok obj c rest).Takes tok (c :: rest) := by
  obtain ⟨done, next, failed⟩ := word_takes obj c rest (.inl is_state)
  unfold nullState
  dsimp only
  split_ifs with same four
  · exact done _ (by rw [show tok.stPos = 4 from four]; decide)
  · exact next
  · exact failed _

theorem boolean_takes (is_state : tok.top.state = .boolean) :
    (booleanState tok obj c rest).Takes tok (c :: rest) := by
  obtain ⟨done, next, failed⟩ := word_takes obj c rest (.inr is_state)
  unfold booleanState
  dsimp only
  split_ifs with same four same five
  · exact done _ (by rw [show tok.stPos = 4 from four]; decide)
  · exact next
  · exact done _ (by rw [show tok.stPos = 5 from five]; decide)
  · exact next
  · exact failed _

theorem number_takes (libc : Libc δ) (is_state : tok.top.state = .number) :
    (numberState libc plainLoop tok obj c rest).Takes tok (c :: rest) := by
  have simple : tok.top.state.simple := by rw [is_state]; rfl
  have length : (tok.append [c]).pb.length = tok.pb.length + 1 := tok.length_append [c]
  simp only [numberState, plainLoop]
  split
  · exact takes_break obj c rest simple (by dsimp only; omega)
  · split
    · exact takes_again obj c rest rfl tok.length_le_load
    · exact takes_fail c rest (Nat.le_add_right _ _) (Tokener.steady_of_simple simple) _

theorem comment_takes (simple : tok.top.state.simple) :
    (commentStartState tok obj c rest).Takes tok (c :: rest) ∧
    (commentState plainLoop tok obj c rest).Takes tok (c :: rest) ∧
    (commentEolState plainLoop tok obj c rest).Takes tok (c :: rest) ∧
    (commentEndState tok obj c rest).Takes tok (c :: rest) := by
  have one : (tok.pb ++ [c]).length ≤ tok.pb.length + 7 := by
    rw [List.length_append]
    exact Nat.add_le_add_left (by simp) _
  have same : tok.pb.length ≤ tok.pb.length + 7 := Nat.le_add_right _ _
  have failed (e : Error) : (fail tok e c rest).Takes tok (c :: rest) :=
    takes_fail c rest (Nat.le_add_right _ _) (Tokener.steady_of_simple simple) e
  refine ⟨?_, ?_, ?_, ?_⟩
  · unfold commentStartState
    split_ifs
    · exact takes_break obj c rest rfl one
    · exact takes_break obj c rest rfl one
    · exact failed _
  · simp only [commentState, plainLoop]
    split_ifs
    · exact takes_break obj c rest simple one
    · exact takes_break obj c rest rfl one
  · simp only [commentEolState, plainLoop]
    split_ifs
    · exact takes_break obj c rest simple one
    · exact takes_break obj c rest rfl same
  · unfold commentEndState
    split_ifs
    · exact takes_break obj c rest rfl one
    · exact takes_break obj c rest rfl one

theorem quoted_takes (simple : tok.top.state.simple) :
    (stringState plainLoop tok obj c rest).Takes tok (c :: rest) ∧
    (objectFieldState plainLoop tok obj c rest).Takes tok (c :: rest) := by
  have one : (tok.pb ++ [c]).length ≤ tok.pb.length + 7 := by
    rw [List.length_append]
    exact Nat.add_le_add_left (by simp) _
  have same : tok.pb.length ≤ tok.pb.length + 7 := Nat.le_add_right _ _
  constructor
  · simp only [stringState, plainLoop]
    split_ifs
    · exact takes_break obj c rest simple one
    · exact takes_break obj c rest rfl same
    · exact takes_break obj c rest rfl same
  · simp only [objectFieldState, plainLoop]
    split_ifs
    · exact takes_break obj c rest simple one
    · exact takes_break obj c rest rfl same
    · exact takes_break obj c rest rfl same

theorem stringEscape_takes (is_state : tok.top.state = .stringEscape)
    (saved : tok.top.savedState.simple) :
    (stringEscapeState tok obj c rest).Takes tok (c :: rest) := by
  have simple : tok.top.state.simple := by rw [is_state]; rfl
  unfold stringEscapeState
  split
  · refine takes_break obj c rest saved ?_
    rw [Tokener.enter, Tokener.length_append]
    exact Nat.add_le_add_left (by simp) _
  · split_ifs
    · refine takes_advance obj c rest ?_ (Tokener.steady_of_stPos rfl)
      rw [Tokener.load_of_stPos rfl]
      exact tok.length_le_load.trans (Nat.le_add_right _ _)
    · exact takes_fail c rest (Nat.le_add_right _ _) (Tokener.steady_of_simple simple) _

/-- The states of arrays and objects append nothing. -/
theorem container_takes (simple : tok.top.state.simple) :
    (arrayState tok obj c rest).Takes tok (c :: rest) ∧
    (arrayAddState tok obj c rest).Takes tok (c :: rest) ∧
    (arraySepState tok obj c rest).Takes tok (c :: rest) ∧
    (objectFieldStartState tok obj c rest).Takes tok (c :: rest) ∧
    (objectFieldEndState tok obj c rest).Takes tok (c :: rest) ∧
    (∀ add, (pushState add tok obj c rest).Takes tok (c :: rest)) ∧
    (objectValueAddState tok obj c rest).Takes tok (c :: rest) ∧
    (objectSepState tok obj c rest).Takes tok (c :: rest) := by
  have same : tok.pb.length ≤ tok.pb.length + 7 := Nat.le_add_right _ _
  have failed (e : Error) : (fail tok e c rest).Takes tok (c :: rest) :=
    takes_fail c rest (Nat.le_add_right _ _) (Tokener.steady_of_simple simple) e
  have pushed (add : State) : (pushState add tok obj c rest).Takes tok (c :: rest) := by
    unfold pushState
    split_ifs
    · exact failed _
    · exact takes_again obj c rest rfl tok.length_le_load
  refine ⟨?_, takes_again obj c rest rfl tok.length_le_load, ?_, ?_, ?_, pushed,
    takes_again obj c rest rfl tok.length_le_load, ?_⟩
  · unfold arrayState
    split_ifs
    · exact failed _
    · exact takes_break obj c rest rfl same
    · exact pushed _
  · unfold arraySepState
    split_ifs
    · exact takes_break obj c rest rfl same
    · exact takes_break obj c rest rfl same
    · exact failed _
  · unfold objectFieldStartState
    split_ifs
    · exact failed _
    · exact takes_break obj c rest rfl same
    · exact takes_break obj c rest rfl (Nat.zero_le _)
    · exact failed _
  · unfold objectFieldEndState
    split_ifs
    · exact takes_break obj c rest rfl same
    · exact failed _
  · unfold objectSepState
    split_ifs
    · exact takes_break obj c rest rfl same
    · exact takes_break obj c rest rfl same
    · exact failed _

end States

/-- What has been taken before a round counts as well. -/
theorem Round.Takes.before {tok tok' : Tokener δ} {taken str : List UInt8} {r : Round δ}
    (takes : r.Takes tok' str) (nonzero : 0 ∉ taken)
    (load : tok'.load ≤ tok.load + 7 * taken.length) : r.Takes tok (taken ++ str) := by
  cases r with
  | inl p =>
    obtain ⟨more, rfl, nonzero', load', steady⟩ := takes
    refine ⟨taken ++ more, (List.append_assoc ..).symm, ?_, ?_, steady⟩
    · rw [List.mem_append]
      exact fun mem => mem.elim nonzero nonzero'
    · rw [List.length_append]
      omega
  | inr s =>
    obtain ⟨more, last, rfl, nonzero', few, load', steady⟩ := takes
    refine ⟨taken ++ more, last, (List.append_assoc ..).symm, ?_, few, ?_, ?_⟩
    · rw [List.mem_append]
      exact fun mem => mem.elim nonzero nonzero'
    · rw [List.length_append]
      omega
    · exact fun uncut => steady ⟨fun cut => uncut.1 (cut.trans (List.suffix_append _ _)),
        fun cut => uncut.2 (cut.trans (List.suffix_append _ _).isInfix)⟩

/-- The loop over an escape appends seven bytes for a character at most. -/
theorem unicodeLoop_takes {tok : Tokener δ} (is_state : tok.top.state = .escapeUnicode)
    (saved : tok.top.savedState.simple) (steady : tok.stPos < 4) (obj : Json δ) (hi : UInt32)
    (str : List UInt8) : (unicodeLoop tok obj hi str).Takes tok str := by
  have load_eq {tok : Tokener δ} (is_state : tok.top.state = .escapeUnicode) :
      tok.load = tok.pb.length := by
    rw [Tokener.load, is_state]
    rfl
  -- On the text that is left, as the loop goes.
  induction length : str.length using Nat.strong_induction_on generalizing tok hi str with
  | _ k ih =>
    have step := unicodeLoop_step tok obj hi str
    generalize unicodeLoop tok obj hi str = r at step ⊢
    cases step with
    | @starve tok' same little nonzero digits =>
      refine ⟨str, [], by simp [starve], nonzero, Nat.zero_le _, ?_, fun uncut _ => ?_⟩
      · have bound : tok'.load ≤ tok.load + 6 := by
          rw [load_eq is_state, load_eq (same.top ▸ is_state)]
          exact little
        exact bound.trans (by omega)
      · exact (digits steady).resolve_right uncut.1
    | @eof tok' more rest same little split few digits =>
      refine ⟨[], 0 :: more, split, List.not_mem_nil, Nat.succ_le_succ few, ?_,
        fun uncut _ => (digits steady).resolve_right uncut.2⟩
      rw [load_eq is_state, load_eq (same.top ▸ is_state)]
      exact little
    | fail split =>
      subst split
      exact takes_fail _ _ (Nat.le_add_right _ _) (fun _ => steady) _
    | @ends tok' c rest same little split =>
      subst split
      refine takes_break obj c rest ?_ little
      rwa [Tokener.enter, same.top]
    | @more tok' taken str' same hi' little split shorter nonzero digits =>
      subst split
      rw [← same.top] at saved is_state
      refine (ih str'.length (length ▸ shorter) is_state saved (digits steady) hi' str' rfl).before
        nonzero ?_
      rw [load_eq is_state, load_eq (same.top ▸ is_state)]
      exact little

/-- What a round of the plain tokener takes, and what it does to the registers. -/
theorem plainRound_takes (libc : Libc δ) {p : Parse δ} (ok : p.tok.Ok) (steady : p.tok.Steady) :
    (plainRound libc p).Takes p.tok p.str := by
  obtain ⟨tok, obj, _ | ⟨c, rest⟩⟩ := p
  · exact ⟨[], [], rfl, List.not_mem_nil, Nat.zero_le _, Nat.le_add_right _ _, fun _ => steady⟩
  · rw [plainRound, roundBy]
    have fits := ok.top
    rw [Level.Ok] at fits
    have saved_simple (saved : tok.top.savedState = .string ∨ tok.top.savedState = .objectField) :
        tok.top.savedState.simple := by
      obtain is_saved | is_saved := saved <;> rw [is_saved] <;> rfl
    have simple {s : State} (is_state : tok.top.state = s) (is_simple : s.simple) :
        tok.top.state.simple :=
      is_state ▸ is_simple
    cases is_state : tok.top.state <;> rw [is_state] at fits <;> rw [switch, is_state]
    case eatws => exact eatws_takes obj c rest is_state fits.1
    case start => exact start_takes obj c rest is_state
    case finish => exact finish_takes c rest ok is_state
    case null => exact null_takes obj c rest is_state
    case commentStart => exact (comment_takes obj c rest (simple is_state rfl)).1
    case comment => exact (comment_takes obj c rest (simple is_state rfl)).2.1
    case commentEol => exact (comment_takes obj c rest (simple is_state rfl)).2.2.1
    case commentEnd => exact (comment_takes obj c rest (simple is_state rfl)).2.2.2
    case string => exact (quoted_takes obj c rest (simple is_state rfl)).1
    case objectField => exact (quoted_takes obj c rest (simple is_state rfl)).2
    case stringEscape => exact stringEscape_takes obj c rest is_state (saved_simple fits.1)
    case escapeUnicode =>
      exact unicodeLoop_takes is_state (saved_simple fits.1) (steady is_state) obj 0 (c :: rest)
    case boolean => exact boolean_takes obj c rest is_state
    case number => exact number_takes obj c rest libc is_state
    all_goals
      obtain ⟨array, arrayAdd, arraySep, fieldStart, fieldEnd, push, valueAdd, sep⟩ :=
        container_takes obj c rest (simple is_state rfl)
      first
      | exact array
      | exact arrayAdd
      | exact arraySep
      | exact fieldStart
      | exact fieldEnd
      | exact push _
      | exact valueAdd
      | exact sep

end LinuxProgram.JsonC
