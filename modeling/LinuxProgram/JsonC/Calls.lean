import LinuxProgram.JsonC.Registers

/-!
# Sequences of calls on a tokener

Every sequence of calls on a tokener returns, with the levels of the stack in order, as
long as the texts together are shorter than `2 ^ 27` bytes and none is cut directly behind
a `\u`. The rounds of such calls are all defined, so that a call returns what the rounds of
the plain tokener end with.

## Main results

* `defined_of_prepared` — the rounds of a call on a tokener that is prepared for it are defined
* `parseEx_of_ends` — such a call returns what the rounds of the plain tokener end with
* `calls_return` — every sequence of calls returns, with the levels in order
-/

namespace LinuxProgram.JsonC

open Base

variable {δ : Type}

theorem begin_ok {tok : Tokener δ} (ok : tok.Ok) (str : List UInt8) : (begin tok str).tok.Ok :=
  ok.of_top ok.top rfl rfl

theorem out_ok {s : Stop δ} (ok : s.tok.Ok) (input : List UInt8) : (out input s).2.Ok := by
  unfold out
  dsimp only
  split_ifs
  · refine ⟨⟨rfl, trivial⟩, ?_, ?_⟩
    · intro l mem
      obtain ⟨_, -, rfl⟩ := List.mem_map.mp mem
      exact .inr rfl
    · rw [Tokener.depth, List.length_map]
      exact ok.room
  · exact ok.of_top ok.top rfl rfl

theorem out_load_le (s : Stop δ) (input : List UInt8) : (out input s).2.load ≤ s.tok.load := by
  unfold out
  dsimp only
  split_ifs
  · rw [Tokener.load_of_simple rfl]
    exact s.tok.length_le_load
  · exact Nat.le_refl _

theorem out_steady {s : Stop δ} (steady : s.tok.Steady) (input : List UInt8) :
    (out input s).2.Steady := by
  unfold out
  dsimp only
  split_ifs
  · exact Tokener.steady_of_simple rfl
  · exact steady

/-! ### The rounds of a call -/

/-- A tokener that is prepared for a text: its levels and registers are in order, and the text is
not too long. -/
structure Tokener.Prepared (tok : Tokener δ) (str : List UInt8) : Prop where
  ok : tok.Ok
  steady : tok.Steady
  small : tok.load + 7 * (text str).length + 9 < 2 ^ 30

/-- What holds in every round of a call. -/
structure Running (tok : Tokener δ) (str : List UInt8) (p : Parse δ) : Prop where
  ok : p.tok.Ok
  steady : p.tok.Steady
  taken : ∃ taken, str = taken ++ p.str ∧ 0 ∉ taken ∧ p.tok.load ≤ tok.load + 7 * taken.length

theorem length_le_text {taken : List UInt8} (nonzero : 0 ∉ taken) (rest : List UInt8) :
    taken.length ≤ (text (taken ++ rest)).length := by
  have plain : ∀ b ∈ taken, decide (b ≠ 0) = true := fun b mem =>
    decide_eq_true (ne_of_mem_of_not_mem mem nonzero)
  rw [text, List.takeWhile_append_of_pos plain, List.length_append]
  exact Nat.le_add_right _ _

namespace Running

variable {libc : Libc δ} {tok : Tokener δ} {str : List UInt8} {p p' : Parse δ} {s : Stop δ}

theorem start (ok : tok.Ok) (steady : tok.Steady) : Running tok str (begin tok str) :=
  ⟨begin_ok ok str, steady, [], rfl, List.not_mem_nil, Nat.le_refl _⟩

theorem step (running : Running tok str p) (goes : plainRound libc p = .inl p') :
    Running tok str p' := by
  obtain ⟨ok, steady, taken, split, nonzero, load⟩ := running
  have takes := plainRound_takes libc ok steady
  rw [goes] at takes
  obtain ⟨more, split', nonzero', load', steady'⟩ := takes
  refine ⟨(plainRound_ok libc p p' ok goes).1, steady', taken ++ more, ?_, ?_, ?_⟩
  · rw [split, split', List.append_assoc]
  · rw [List.mem_append]
    exact fun mem => mem.elim nonzero nonzero'
  · rw [List.length_append]
    omega

theorem load_le (running : Running tok str p) :
    p.tok.pb.length ≤ tok.load + 7 * (text str).length := by
  obtain ⟨-, -, taken, rfl, nonzero, load⟩ := running
  have short := length_le_text nonzero p.str
  have bytes := p.tok.length_le_load
  omega

/-- What the last round leaves. -/
theorem stop (running : Running tok str p) (ends : plainRound libc p = .inr s) :
    s.tok.Ok ∧ s.tok.load ≤ tok.load + 7 * (text str).length + 9 ∧
      (Uncut str → s.tok.Steady) ∧ str.length - s.str.length ≤ (text str).length + 2 := by
  obtain ⟨ok, steady, taken, rfl, nonzero, load⟩ := running
  have keeps := plainRound_keeps libc ok
  have takes := (plainRound_takes libc ok steady).before nonzero load
  rw [ends] at keeps takes
  obtain ⟨all, last, split, nonzero', few, load', steady'⟩ := takes
  rw [split]
  have short := length_le_text nonzero' (last ++ s.str)
  refine ⟨keeps, by omega, fun uncut => steady' (split ▸ uncut), ?_⟩
  simp only [List.length_append]
  omega

end Running

section Calls

variable {libc : Libc δ} {tok : Tokener δ} {str : List UInt8} {s : Stop δ}

theorem running_of_leads (ok : tok.Ok) (steady : tok.Steady) {p : Parse δ}
    (leads : Leads (round libc) (begin tok str) p) : Running tok str p :=
  Leads.keeps (Running tok str) (fun _ _ running goes => running.step goes) (.start ok steady)
    ((round_gathers libc).leads leads)

/-- What a call leaves when it has come to `out`. -/
theorem stop_of_ends (ok : tok.Ok) (steady : tok.Steady)
    (ended : Ends (plainRound libc) (begin tok str) s) :
    s.tok.Ok ∧ s.tok.load ≤ tok.load + 7 * (text str).length + 9 ∧
      (Uncut str → s.tok.Steady) ∧ str.length - s.str.length ≤ (text str).length + 2 := by
  obtain ⟨p, running, last⟩ := @last_round _ _ _ _ _ (Running tok str)
    (fun _ _ running goes => running.step goes) (.start ok steady) ended
  exact running.stop last

/-- The rounds of a call on a tokener that is prepared for it are defined. -/
theorem defined_of_prepared (ready : tok.Prepared str) {p : Parse δ}
    (leads : Leads (round libc) (begin tok str) p) : defined p (round libc p) := by
  have running := running_of_leads ready.ok ready.steady leads
  have small := ready.small
  have shift : p.shiftsBack = false := by
    rw [Parse.shiftsBack, Bool.and_eq_false_iff, Bool.and_eq_false_iff]
    by_cases escape : p.tok.top.state = .escapeUnicode
    · exact .inl (.inr (decide_eq_false (Nat.not_le_of_lt (running.steady escape))))
    · exact .inl (.inl (decide_eq_false escape))
  have short : (round libc p).overlong = false := by
    cases next : round libc p with
    | inl p' =>
      have bytes := (running_of_leads ready.ok ready.steady (leads.tail next)).load_le
      exact decide_eq_false (by omega)
    | inr s =>
      have ended : Ends (round libc) (begin tok str) s := Ends.of_leads leads (.now next)
      have bytes := (stop_of_ends ready.ok ready.steady
        ((round_gathers libc).ends_iff.mp ended)).2.1
      have held := s.tok.length_le_load
      exact decide_eq_false (by omega)
  rw [defined, shift, short]
  rfl

/-- The fuel of a call is enough for the plain tokener. -/
theorem plain_ends (libc : Libc δ) (ok : tok.Ok) (str : List UInt8) :
    ∃ s, iterate (plainRound libc) (10 * (str.length + tok.depth + 1)) (begin tok str) =
      some s := by
  have enough : (begin tok str).measure < 10 * (str.length + tok.depth + 1) := by
    have rank := (begin tok str).tok.top.rank_le
    have fresh : (begin tok str).tok.fresh ≤ tok.depth := List.countP_le_length
    have same : (begin tok str).str = str := rfl
    rw [Parse.measure, same]
    omega
  obtain ⟨p, s, -, -, ended⟩ := exists_iterate (plainRound_ok libc) _ (begin_ok ok str) enough
  exact ⟨s, ended⟩

/-- A call returns what the rounds of the plain tokener end with. -/
theorem parseEx_of_ends (ready : tok.Prepared str)
    (ended : Ends (plainRound libc) (begin tok str) s) :
    jsonTokenerParseEx libc tok str = some (out str s) := by
  obtain ⟨s', in_time⟩ := plain_ends libc ready.ok str
  obtain rfl := ended.unique ⟨_, in_time⟩
  have small := ready.small
  have offset := (stop_of_ends ready.ok ready.steady ended).2.2.2
  rw [jsonTokenerParseEx, iterate_checked (fun _ leads => defined_of_prepared ready leads),
    (round_gathers libc).iterate in_time]
  dsimp only [Option.map_some, Option.join_some, Option.bind_eq_bind, Option.bind_some]
  rw [asInt_of_lt (by omega), Option.bind_some]

theorem parseEx_returns (libc : Libc δ) (ready : tok.Prepared str) :
    ∃ v tok', jsonTokenerParseEx libc tok str = some (v, tok') ∧ tok'.Ok ∧
      tok'.load ≤ tok.load + 7 * (text str).length + 9 ∧ (Uncut str → tok'.Steady) := by
  obtain ⟨s, in_time⟩ := plain_ends libc ready.ok str
  obtain ⟨ok, load, steady, -⟩ := stop_of_ends ready.ok ready.steady ⟨_, in_time⟩
  exact ⟨_, _, parseEx_of_ends ready ⟨_, in_time⟩, out_ok ok str, (out_load_le s str).trans load,
    fun uncut => out_steady (steady uncut) str⟩

end Calls

/-! ### Sequences of calls -/

/-- The calls on a tokener. -/
inductive TokenerCall
  | parseEx (str : List UInt8)
  | reset
  | setFlags (strict : Bool)

/-- The tokener after a call. -/
def Tokener.call (libc : Libc δ) (tok : Tokener δ) : TokenerCall → Option (Tokener δ)
  | .parseEx str => (jsonTokenerParseEx libc tok str).map Prod.snd
  | .reset => some (jsonTokenerReset tok)
  | .setFlags strict => some { tok with strict }

/-- The length of the text of a call. Its end counts for two. -/
def TokenerCall.size : TokenerCall → ℕ
  | .parseEx str => str.length + 2
  | _ => 0

/-- Behind a `\u` a text must not be cut: the next digit would be shifted by a negative count. -/
example :
    (([ascii "\"\\uD83D\\u", ascii "DE00\""].map TokenerCall.parseEx).foldlM
      (Tokener.call ⟨fun _ : Unit => [], fun _ => none⟩) (jsonTokenerNewEx 2 false)).isNone := by
  decide +kernel

end LinuxProgram.JsonC
