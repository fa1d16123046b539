import LinuxProgram.JsonC.Tokener

/-!
# The tokener, character by character

`json_tokener.c` calls the loops inside its rounds an optimization: a stretch of
characters is taken in one round, and appended to the `printbuf` at once. The plain
tokener takes one character in each round.

## Main results

* `round_gathers` — a round of the tokener is one or more rounds of the plain one
* `tight_loops_agree` — every call has the result that it has in the plain tokener
-/

namespace LinuxProgram.JsonC

open Base

variable {δ : Type}

/-- One character in each round. -/
def plainLoop : Loop δ := fun cond gather found tok obj c rest =>
  if cond c then advance (gather tok [c]) obj c rest else found tok obj c rest

/-- A round of the plain tokener. -/
def plainRound (libc : Libc δ) : Parse δ → Round δ := roundBy libc plainLoop

@[simp] theorem Tokener.append_append (tok : Tokener δ) (a b : List UInt8) :
    (tok.append a).append b = tok.append (a ++ b) := by
  simp [Tokener.append]

/-- What makes a loop one that can be cut: the characters are gathered in order, and the state
stays in its loop. -/
structure Cuttable (libc : Libc δ) (inside : Tokener δ → Prop) (cond : UInt8 → Bool)
    (gather : Tokener δ → List UInt8 → Tokener δ)
    (found : Tokener δ → Json δ → UInt8 → List UInt8 → Round δ) : Prop where
  switch : ∀ tok, inside tok → switch libc plainLoop tok = plainLoop cond gather found tok
  nil : ∀ tok, gather tok [] = tok
  cons : ∀ tok c taken, gather (gather tok [c]) taken = gather tok (c :: taken)
  inside : ∀ tok c, inside tok → inside (gather tok [c])

theorem scan_of_not {cond : UInt8 → Bool} {c : UInt8} (other : ¬ cond c) (rest : List UInt8) :
    scan cond c rest = .found [] c rest := by
  cases rest <;> rw [scan, if_neg other]

theorem scan_of_zero {cond : UInt8 → Bool} {c : UInt8} (taken : cond c) (zero : c = 0)
    (rest : List UInt8) : scan cond c rest = .zero [c] rest := by
  cases rest <;> rw [scan, if_pos taken, if_pos zero]

section Cut

variable {libc : Libc δ} {inside : Tokener δ → Prop} {cond : UInt8 → Bool}
  {gather : Tokener δ → List UInt8 → Tokener δ}
  {found : Tokener δ → Json δ → UInt8 → List UInt8 → Round δ}

/-- A tight loop goes on with the next character as it has begun. -/
theorem Cuttable.tightLoop_cons (cuttable : Cuttable libc inside cond gather found)
    (tok : Tokener δ) (obj : Json δ) {c c' : UInt8} (rest : List UInt8) (taken : cond c)
    (nonzero : c ≠ 0) :
    tightLoop cond gather found tok obj c (c' :: rest) =
      tightLoop cond gather found (gather tok [c]) obj c' rest := by
  unfold tightLoop
  rw [scan, if_pos taken, if_neg nonzero]
  cases scan cond c' rest <;> simp only [Scan.cons, cuttable.cons]

/-- What a tight loop does in one round, the plain tokener does in one or more. -/
theorem Cuttable.reaches (cuttable : Cuttable libc inside cond gather found) {tok : Tokener δ}
    (obj : Json δ) (c : UInt8) (rest : List UInt8) (starts : inside tok) :
    Reaches (plainRound libc) ⟨tok, obj, c :: rest⟩
      (tightLoop cond gather found tok obj c rest) := by
  have plain : plainRound libc ⟨tok, obj, c :: rest⟩ =
      plainLoop cond gather found tok obj c rest := by
    rw [plainRound, roundBy, cuttable.switch tok starts]
  by_cases taken : cond c
  · by_cases zero : c = 0
    · apply Reaches.now
      rw [plain, plainLoop, if_pos taken, advance, if_pos zero, tightLoop,
        scan_of_zero taken zero]
    · have goes : Goes (plainRound libc) ⟨tok, obj, c :: rest⟩ ⟨gather tok [c], obj, rest⟩ := by
        rw [Goes, plain, plainLoop, if_pos taken, advance, if_neg zero]
      -- The next round finds the end of the text or goes on with the loop.
      cases rest with
      | nil =>
        apply Reaches.later goes (Reaches.now _)
        rw [tightLoop, scan, if_pos taken, if_neg zero]
        rfl
      | cons c' rest =>
        rw [cuttable.tightLoop_cons _ _ _ taken zero]
        exact Reaches.later goes (reaches cuttable obj c' rest (cuttable.inside tok c starts))
  · apply Reaches.now
    rw [plain, plainLoop, if_neg taken, tightLoop, scan_of_not taken]
    simp only [cuttable.nil]

/-- The loops that append what they take. -/
theorem cuttable_of_append
    (switch : ∀ tok, inside tok →
      switch libc plainLoop tok = plainLoop cond Tokener.append found tok)
    (stays : ∀ tok c, inside tok → inside (tok.append [c])) :
    Cuttable libc inside cond Tokener.append found where
  switch := switch
  nil tok := by simp [Tokener.append]
  cons tok c taken := tok.append_append [c] taken
  inside := stays

end Cut

/-- A round is one or more rounds of the plain tokener. -/
theorem round_gathers (libc : Libc δ) : Gathers (round libc) (plainRound libc) := by
  rintro ⟨tok, obj, _ | ⟨c, rest⟩⟩
  · exact Reaches.now rfl
  · rw [round, roundBy]
    cases is_state : tok.top.state with
    | eatws =>
      rw [switch, is_state]
      apply @Cuttable.reaches δ libc fun tok => tok.top.state = .eatws
      · exact ⟨fun tok eatws => by rw [switch, eatws, eatwsState], fun _ => rfl, fun _ _ _ => rfl,
          fun _ _ eatws => eatws⟩
      · exact is_state
    | comment =>
      rw [switch, is_state]
      apply @Cuttable.reaches δ libc fun tok => tok.top.state = .comment
      · exact cuttable_of_append (fun tok comment => by rw [switch, comment, commentState])
          fun _ _ comment => comment
      · exact is_state
    | commentEol =>
      rw [switch, is_state]
      apply @Cuttable.reaches δ libc fun tok => tok.top.state = .commentEol
      · exact cuttable_of_append (fun tok comment => by rw [switch, comment, commentEolState])
          fun _ _ comment => comment
      · exact is_state
    | string =>
      rw [switch, is_state]
      apply @Cuttable.reaches δ libc fun other =>
        other.top.state = .string ∧ other.quoteChar = tok.quoteChar
      · exact cuttable_of_append (fun tok inside => by rw [switch, inside.1, stringState, inside.2])
          fun _ _ inside => inside
      · exact ⟨is_state, rfl⟩
    | objectField =>
      rw [switch, is_state]
      apply @Cuttable.reaches δ libc fun other =>
        other.top.state = .objectField ∧ other.quoteChar = tok.quoteChar
      · exact cuttable_of_append
          (fun tok inside => by rw [switch, inside.1, objectFieldState, inside.2])
          fun _ _ inside => inside
      · exact ⟨is_state, rfl⟩
    | number =>
      rw [switch, is_state]
      apply @Cuttable.reaches δ libc fun tok => tok.top.state = .number
      · exact ⟨fun tok number => by rw [switch, number, numberState],
          fun tok => by simp [Tokener.append],
          fun tok c taken => by simp [Tokener.append, Bool.or_assoc], fun _ _ number => number⟩
      · exact is_state
    | _ =>
      apply Reaches.now
      rw [plainRound, roundBy, switch, switch, is_state]

/-- A call has the result that it has in the plain tokener, from any tokener and for any
text. -/
theorem tight_loops_agree (libc : Libc δ) (tok : Tokener δ) (str : List UInt8)
    (result : Json δ × Tokener δ) :
    (∃ s, Ends (round libc) (begin tok str) s ∧ out str s = result) ↔
      ∃ s, Ends (plainRound libc) (begin tok str) s ∧ out str s = result := by
  simp only [(round_gathers libc).ends_iff]

/-! ### Rounds of the plain tokener -/

/-- A word in small letters is compared with the beginning of the text. -/
theorem strncasecmp_eq_zero_iff {word pb : List UInt8} {n : ℕ} (lower : word.map tolower = word)
    (plain : 0 ∉ word) (long : n ≤ word.length) :
    strncasecmp word pb n = 0 ↔ (pb.map tolower).take n = word.take n := by
  rw [strncasecmp, lower, strncmp_eq_zero_iff long plain]

section Rounds

variable {libc : Libc δ} {tok : Tokener δ} (obj : Json δ) (c : UInt8) (rest : List UInt8)

theorem plainRound_cons :
    plainRound libc ⟨tok, obj, c :: rest⟩ = switch libc plainLoop tok obj c rest := rfl

theorem switch_eatws (is_state : tok.top.state = .eatws) :
    switch libc plainLoop tok obj c rest =
      if isspace c then advance tok obj c rest
      else if c = 0x2F then advance { tok.enter .commentStart with pb := [c] } obj c rest
      else redoChar (tok.enter tok.top.savedState) obj c rest := by
  rw [switch, is_state]
  rfl

theorem switch_comment (is_state : tok.top.state = .comment) :
    switch libc plainLoop tok obj c rest =
      if c ≠ 0x2A then advance (tok.append [c]) obj c rest
      else advance ((tok.append [c]).enter .commentEnd) obj c rest := by
  rw [switch, is_state]
  simp only [commentState, plainLoop, decide_eq_true_eq]

theorem switch_commentEol (is_state : tok.top.state = .commentEol) :
    switch libc plainLoop tok obj c rest =
      if c ≠ 0x0A then advance (tok.append [c]) obj c rest
      else advance (tok.enter .eatws) obj c rest := by
  rw [switch, is_state]
  simp only [commentEolState, plainLoop, decide_eq_true_eq]

theorem switch_string (is_state : tok.top.state = .string) :
    switch libc plainLoop tok obj c rest =
      if c ≠ tok.quoteChar ∧ c ≠ 0x5C then advance (tok.append [c]) obj c rest
      else if c = tok.quoteChar then
        advance ((tok.put (.string tok.pb)).skipTo .finish) obj c rest
      else advance ((tok.skipTo .string).enter .stringEscape) obj c rest := by
  rw [switch, is_state]
  simp only [stringState, plainLoop, Bool.and_eq_true, decide_eq_true_eq]

theorem switch_objectField (is_state : tok.top.state = .objectField) :
    switch libc plainLoop tok obj c rest =
      if c ≠ tok.quoteChar ∧ c ≠ 0x5C then advance (tok.append [c]) obj c rest
      else if c = tok.quoteChar then
        advance { tok with top :=
          { tok.top with
            objFieldName := some (text tok.pb), savedState := .objectFieldEnd, state := .eatws } }
          obj c rest
      else advance ((tok.skipTo .objectField).enter .stringEscape) obj c rest := by
  rw [switch, is_state]
  simp only [objectFieldState, plainLoop, Bool.and_eq_true, decide_eq_true_eq]

theorem switch_number (is_state : tok.top.state = .number) :
    switch libc plainLoop tok obj c rest =
      if c ≠ 0 ∧ c ∈ jsonNumberChars then
        advance { tok.append [c] with isDouble := tok.isDouble || isDoubleChar c } obj c rest
      else
        match numberValue libc tok.isDouble (text tok.pb) with
        | some v => redoChar ((tok.put v).skipTo .finish) obj c rest
        | none => fail tok .parseNumber c rest := by
  have both : (c ≠ 0 && c ∈ jsonNumberChars) = true ↔ c ≠ 0 ∧ c ∈ jsonNumberChars := by
    rw [Bool.and_eq_true, decide_eq_true_eq, decide_eq_true_eq]
  have one : [c].any isDoubleChar = isDoubleChar c := by
    rw [List.any_cons, List.any_nil, Bool.or_false]
  rw [switch, is_state, ← one]
  exact if_congr both rfl rfl

theorem switch_null (is_state : tok.top.state = .null) :
    switch libc plainLoop tok obj c rest =
      if ((tok.pb ++ [c]).map tolower).take (min (tok.stPos + 1) 4) =
          (ascii "null").take (min (tok.stPos + 1) 4) then
        if tok.stPos = 4 then redoChar (((tok.append [c]).put .null).skipTo .finish) obj c rest
        else advance { tok.append [c] with stPos := tok.stPos + 1 } obj c rest
      else fail (tok.append [c]) .parseNull c rest := by
  rw [switch, is_state]
  exact if_congr (strncasecmp_eq_zero_iff (by decide) (by decide) (Nat.min_le_right _ 4)) rfl rfl

theorem switch_boolean (is_state : tok.top.state = .boolean) :
    switch libc plainLoop tok obj c rest =
      if ((tok.pb ++ [c]).map tolower).take (min (tok.stPos + 1) 4) =
          (ascii "true").take (min (tok.stPos + 1) 4) then
        if tok.stPos = 4 then
          redoChar (((tok.append [c]).put (.boolean true)).skipTo .finish) obj c rest
        else advance { tok.append [c] with stPos := tok.stPos + 1 } obj c rest
      else if ((tok.pb ++ [c]).map tolower).take (min (tok.stPos + 1) 5) =
          (ascii "false").take (min (tok.stPos + 1) 5) then
        if tok.stPos = 5 then
          redoChar (((tok.append [c]).put (.boolean false)).skipTo .finish) obj c rest
        else advance { tok.append [c] with stPos := tok.stPos + 1 } obj c rest
      else fail (tok.append [c]) .parseBoolean c rest := by
  rw [switch, is_state]
  exact if_congr (strncasecmp_eq_zero_iff (by decide) (by decide) (Nat.min_le_right _ 4)) rfl
    (if_congr (strncasecmp_eq_zero_iff (by decide) (by decide) (Nat.min_le_right _ 5)) rfl rfl)

/-- The two states that are inside quotation marks. -/
def Quoted (s : State) : Prop := s = .string ∨ s = .objectField

theorem switch_quoted {s : State} (quoted : Quoted s) (is_state : tok.top.state = s)
    (inside : c ≠ tok.quoteChar) :
    switch libc plainLoop tok obj c rest =
      if c ≠ 0x5C then advance (tok.append [c]) obj c rest
      else advance ((tok.skipTo s).enter .stringEscape) obj c rest := by
  obtain rfl | rfl := quoted
  · simp only [switch_string _ _ _ is_state, inside, ne_eq, not_false_eq_true, true_and, if_false]
  · simp only [switch_objectField _ _ _ is_state, inside, ne_eq, not_false_eq_true, true_and,
      if_false]

end Rounds

end LinuxProgram.JsonC
