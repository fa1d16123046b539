import LinuxProgram.JsonC.Accepted

/-!
# Printing and parsing

The text that `json_object.c` prints for a value is in the language of `json_tokener.c`, with
this value. So what is printed is parsed back, whatever the flags: the blanks and line breaks of
the flags are gaps, an escaped byte is read as this byte, and the members of an object come back
in their order because a new name is appended.

Not every value is printed so. Integers beyond 64 bits are not values of the library; a name
is printed up to its first zero; and doubles are what the C library makes of them, as long as
their text fits into the array that it goes through.

## Main definitions

* `Kept` — the values that printing keeps

## Main results

* `listed_read` — texts that are separated by commas are read one by one
* `Kept.reads` — the text of a value is read as this value
* `parse_of_toJsonString` — the printed string is parsed to the value
-/

namespace LinuxProgram.JsonC

open Base

variable {δ : Type} {libc : Libc δ} {flags : Flags} {strict : Bool}

/-! ### Gaps and strings -/

theorem Gap.of_spaces {g : List UInt8} (spaces : g.all isspace) : Gap g := by
  induction g using List.reverseRecOn with
  | nil => exact .nil
  | append_singleton g c ih =>
    rw [List.all_append, Bool.and_eq_true] at spaces
    exact .space (ih spaces.1) (by simpa using spaces.2)

theorem lineEnd_gap (flags : Flags) : Gap (lineEnd flags) := by
  unfold lineEnd
  split_ifs
  · exact .of_spaces (by decide)
  · exact .nil

theorem space_gap (flags : Flags) : Gap (space flags) := by
  unfold space
  split_ifs
  · exact .of_spaces (by decide)
  · exact .nil

theorem margin_gap (flags : Flags) (level : ℕ) : Gap (margin flags level) := by
  unfold margin
  split_ifs
  · refine .of_spaces (List.all_eq_true.mpr fun c mem => ?_)
    rw [List.eq_of_mem_replicate mem]
    rfl
  · exact .nil

/-- What is printed for a byte is read as this byte. -/
theorem escapeByte_cases (c : UInt8) :
    (escapeByte c = [c] ∧ c ≠ 0x22 ∧ c ≠ 0x5C ∧ c ≠ 0) ∨
      (∃ e, escapeByte c = [0x5C, e] ∧ (e, c) ∈ letterEscapes) ∨
      ∃ a b, escapeByte c = [0x5C, 0x75, 0x30, 0x30, a, b] ∧
        codeUnit 0x30 0x30 a b = some c.toNat ∧ ¬ HighSurrogate c.toNat ∧ utf8 c.toNat = [c] := by
  have cases (c : UInt8) : (escapeByte c = [c] ∧ c ≠ 0x22 ∧ c ≠ 0x5C ∧ c ≠ 0) ∨
      (escapeByte c = [0x5C, (escapeByte c).getD 1 0] ∧
        ((escapeByte c).getD 1 0, c) ∈ letterEscapes) ∨
      (escapeByte c =
          [0x5C, 0x75, 0x30, 0x30, (escapeByte c).getD 4 0, (escapeByte c).getD 5 0] ∧
        codeUnit 0x30 0x30 ((escapeByte c).getD 4 0) ((escapeByte c).getD 5 0) = some c.toNat ∧
        ¬ HighSurrogate c.toNat ∧ utf8 c.toNat = [c]) := by
    revert c
    apply forall_byte
    decide +kernel
  obtain plain | letter | unicode := cases c
  · exact .inl plain
  · exact .inr (.inl ⟨_, letter⟩)
  · exact .inr (.inr ⟨_, _, unicode⟩)

theorem escaped_chars (str : List UInt8) : Chars 0x22 false (str.flatMap escapeByte) str := by
  induction str using List.reverseRecOn with
  | nil => exact .nil
  | append_singleton str c ih =>
    rw [List.flatMap_append, List.flatMap_cons, List.flatMap_nil, List.append_nil]
    obtain ⟨plain, no_quote, no_escape, nonzero⟩ | ⟨e, escaped, letter⟩ |
      ⟨a, b, escaped, unit, no_high, bytes⟩ := escapeByte_cases c
    · rw [plain]
      exact ih.plain no_quote no_escape nonzero
    · rw [escaped]
      exact ih.escape letter
    · have units := @Units.last none 0x30 0x30 a b _ unit no_high
      rw [escaped]
      rw [joined, bytes, List.nil_append] at units
      exact ih.unicode units

/-! ### Numbers -/

theorem decimalNat_isdigit {n : ℕ} {b : UInt8} (printed : b ∈ decimalNat n) : isdigit b := by
  obtain ⟨low, high⟩ := decimalNat_digit printed
  simp only [isdigit, Bool.and_eq_true, decide_eq_true_eq, UInt8.le_iff_toNat_le]
  exact ⟨low, high⟩

theorem decimalNat_ne_nil (n : ℕ) : decimalNat n ≠ [] := by
  unfold decimalNat
  split_ifs with zero
  · exact List.cons_ne_nil _ _
  · simpa [Nat.digits_eq_nil_iff_eq_zero] using zero

theorem decimalNat_digits (n : ℕ) : Digits (decimalNat n) [] where
  some_digit := decimalNat_ne_nil n
  digits := List.all_eq_true.mpr fun _ mem => decimalNat_isdigit mem
  rest := fun _ is_head => by cases is_head

/-- The digits of a printed number are read back. -/
theorem digitsValue_decimalNat (n : ℕ) : digitsValue (decimalNat n) = n := by
  unfold digitsValue decimalNat
  split_ifs with zero
  · rw [zero]
    rfl
  · rw [← List.map_reverse, List.reverse_reverse, List.map_map]
    have same : (Nat.digits 10 n).map ((fun b : UInt8 => b.toNat - 0x30) ∘
        fun d => UInt8.ofNat (0x30 + d)) = Nat.digits 10 n := by
      refine (List.map_congr_left fun d mem => ?_).trans (List.map_id _)
      have small := Nat.digits_lt_base (by decide : 1 < 10) mem
      simp only [Function.comp_apply, UInt8.toNat_ofNat', id]
      omega
    rw [same, Nat.ofDigits_digits]

theorem decimal_integer {i : ℤ} (low : -2 ^ 63 ≤ i) (high : i < 2 ^ 63) :
    Integer (decimal i) i := by
  have digits := decimalNat_digits i.natAbs
  unfold decimal
  split_ifs with negative
  · have integer := Integer.negative digits
    rwa [List.append_nil, digitsValue_decimalNat, max_eq_left (by omega),
      show -(i.natAbs : ℤ) = i by omega] at integer
  · have integer := Integer.positive digits
    rwa [List.append_nil, digitsValue_decimalNat, min_eq_left (by omega),
      show (i.natAbs : ℤ) = i by omega] at integer

theorem decimal_chars {i : ℤ} {c : UInt8} (printed : c ∈ decimal i) : isdigit c ∨ c = 0x2D := by
  unfold decimal at printed
  split_ifs at printed
  · obtain rfl | printed := List.mem_cons.mp printed
    · exact .inr rfl
    · exact .inl (decimalNat_isdigit printed)
  · exact .inl (decimalNat_isdigit printed)

theorem number_first_not_double (c : UInt8) (first : isdigit c ∨ c = 0x2D) : c ∉ doubleChars := by
  revert c
  apply forall_byte
  decide +kernel

theorem decimal_reads {n : ℕ} {i : ℤ} (low : -2 ^ 63 ≤ i) (high : i < 2 ^ 63) :
    Reads libc strict (n + 1) .value none (decimal i) (.int i) := by
  have number : NumberText (decimal i) := by
    refine ⟨?_, fun c mem => (number_first c (decimal_chars mem)).1⟩
    obtain ⟨c, digits, split⟩ : ∃ c digits, decimal i = c :: digits := by
      unfold decimal
      split_ifs
      · exact ⟨_, _, rfl⟩
      · exact List.exists_cons_of_ne_nil (decimalNat_ne_nil _)
    refine ⟨c, by rw [split]; rfl, decimal_chars (i := i) ?_⟩
    rw [split]
    exact List.mem_cons_self ..
  exact .int number (fun c mem => number_first_not_double c (decimal_chars mem))
    (decimal_integer low high)

/-! ### Arrays and objects -/

/-- Texts that are separated by commas and gaps are read one by one. What is read so far is a list
of `all`, and each text adds its element. -/
theorem listed_read {α : Type} {R : Place → List UInt8 → List α → Prop} {Before : Place → Prop}
    {behind comma : Place} {all : List α} (txt : α → List UInt8) {front lines : List UInt8}
    (gap : Gap front) (gap' : Gap lines) (before_comma : Before comma)
    (next : ∀ {w done}, R behind w done → R comma (w ++ [0x2C]) done)
    (add : ∀ {p w g done x rest}, all = done ++ x :: rest → R p w done → Before p → Gap g →
      R behind (w ++ (g ++ txt x)) (done ++ [x]))
    {p : Place} {w g : List UInt8} {done : List α} {x : α} {rest : List α}
    (split : all = done ++ x :: rest) (reads : R p w done) (before : Before p) (start : Gap g) :
    R behind (w ++ (g ++ (0x2C :: lines).intercalate ((x :: rest).map (front ++ txt ·)))) all := by
  have added := add split reads before (start.append gap)
  induction rest generalizing p w g done x with
  | nil =>
    rw [List.map_singleton, List.intercalate_singleton, split]
    rwa [List.append_assoc] at added
  | cons y rest ih =>
    have split' : all = done ++ [x] ++ y :: rest := by
      rw [split, List.append_assoc]
      rfl
    have later := ih split' (next added) before_comma gap'
      (add split' (next added) before_comma (gap'.append gap))
    simpa [List.intercalate_cons_cons] using later

/-- The values that printing keeps, with the levels that are available: integers of 64 bits,
doubles whose text is a number that the C library reads as this double, and objects whose names
are different and hold no zero. -/
inductive Kept (libc : Libc δ) (flags : Flags) : ℕ → Json δ → Prop
  | null {n : ℕ} : Kept libc flags (n + 1) .null
  | boolean {n : ℕ} (b : Bool) : Kept libc flags (n + 1) (.boolean b)
  | int {n : ℕ} {i : ℤ} : -2 ^ 63 ≤ i → i < 2 ^ 63 → Kept libc flags (n + 1) (.int i)
  | double {n : ℕ} {d : δ} : IsDecimal (libc.printF d) →
      NumberText (doubleText flags.nozero (libc.printF d)) →
      (∃ c ∈ doubleText flags.nozero (libc.printF d), c ∈ doubleChars) →
      libc.scanLf (doubleText flags.nozero (libc.printF d)) = some d →
      Kept libc flags (n + 1) (.double d)
  | string {n : ℕ} (str : List UInt8) : Kept libc flags (n + 1) (.string str)
  | array {n : ℕ} {items : List (Json δ)} :
      (∀ v ∈ items, Kept libc flags n v) → Kept libc flags (n + 1) (.array items)
  | object {n : ℕ} {members : List (List UInt8 × Json δ)} :
      (∀ m ∈ members, 0 ∉ m.1) → (members.map Prod.fst).Nodup →
      (∀ m ∈ members, Kept libc flags n m.2) → Kept libc flags (n + 1) (.object members)

theorem itemTexts_eq (level : ℕ) (items : List (Json δ)) :
    itemTexts libc flags level items = items.map (·.print libc flags level) := by
  induction items with
  | nil => rw [itemTexts, List.map_nil]
  | cons item items ih => rw [itemTexts, ih, List.map_cons]

/-- The text of a member. -/
def memberText (libc : Libc δ) (flags : Flags) (level : ℕ) (m : List UInt8 × Json δ) :
    List UInt8 :=
  quoted (text m.1) ++ 0x3A :: space flags ++ m.2.print libc flags level

theorem memberTexts_eq (level : ℕ) (members : List (List UInt8 × Json δ)) :
    memberTexts libc flags level members = members.map (memberText libc flags level) := by
  induction members with
  | nil => rw [memberTexts, List.map_nil]
  | cons m members ih => rw [memberTexts, ih, List.map_cons, memberText]

section Containers

variable {n : ℕ} (level : ℕ)

/-- What is printed around the texts of elements or members. -/
theorem bracketed_eq {α : Type} (opening closing : UInt8) (txt : α → List UInt8) (l : List α) :
    ∃ g, Gap g ∧ bracketed flags level opening closing (l.map txt) =
      opening :: (lineEnd flags ++ (0x2C :: lineEnd flags).intercalate
        (l.map (space flags ++ margin flags (level + 1) ++ txt ·)) ++ (g ++ [closing])) := by
  have ends : Gap (if l.map txt = [] then [] else lineEnd flags) := by
    split_ifs
    · exact .nil
    · exact lineEnd_gap flags
  refine ⟨_, (ends.append (margin_gap flags level)).append (space_gap flags), ?_⟩
  simp [bracketed, Function.comp_def]

theorem front_gap (flags : Flags) (level : ℕ) : Gap (space flags ++ margin flags level) :=
  (space_gap flags).append (margin_gap flags level)

theorem array_read {items : List (Json δ)}
    (read : ∀ v ∈ items, Reads libc strict n .value none (v.print libc flags (level + 1)) v) :
    Reads libc strict (n + 1) .value none ((Json.array items).print libc flags level)
      (.array items) := by
  obtain ⟨g, gap, printed⟩ :=
    @bracketed_eq flags level _ 0x5B 0x5D (·.print libc flags (level + 1)) items
  rw [Json.print, itemTexts_eq, printed]
  cases items with
  | nil =>
    have opened : Reads libc strict (n + 1) .arrayOpen none [0x5B] (.array []) := .openArray
    simpa using opened.closeArray (absurd · (by decide)) ((lineEnd_gap flags).append gap)
      (.inr (.inl rfl))
  | cons item items =>
    have all := listed_read (R := fun p w done => Reads libc strict (n + 1) p none w (.array done))
      (·.print libc flags (level + 1)) (front_gap flags (level + 1)) (lineEnd_gap flags) (.inr rfl)
      (fun reads => reads.itemComma .nil) (fun split reads before gap =>
        reads.item before gap (read _ (by rw [split]; simp))) (List.nil_append _).symm .openArray
      (.inl rfl) (lineEnd_gap flags)
    simpa using all.closeArray (absurd · (by decide)) gap (.inl rfl)

/-- A name in quotation marks, the colon and what may follow it, and the value. -/
theorem member_read {p : Place} {w g : List UInt8} {m : List UInt8 × Json δ}
    {done : List (List UInt8 × Json δ)}
    (reads : Reads libc strict (n + 1) p none w (.object done)) (before : BeforeName p)
    (gap : Gap g) (plain : 0 ∉ m.1) (absent : m.1 ∉ done.map Prod.fst)
    (child : Reads libc strict n .value none (m.2.print libc flags level) m.2) :
    Reads libc strict (n + 1) .member none (w ++ (g ++ memberText libc flags level m))
      (.object (done ++ [m])) := by
  have named := reads.name before gap (.inl rfl) (escaped_chars m.1)
  rw [text_of_plain plain] at named
  have member := (named.colon .nil).member (space_gap flags) child
  rw [Members.add_of_notMem absent] at member
  simpa [memberText, quoted, text_of_plain plain] using member

theorem object_read {members : List (List UInt8 × Json δ)} (plain : ∀ m ∈ members, 0 ∉ m.1)
    (distinct : (members.map Prod.fst).Nodup)
    (read : ∀ m ∈ members,
      Reads libc strict n .value none (m.2.print libc flags (level + 1)) m.2) :
    Reads libc strict (n + 1) .value none ((Json.object members).print libc flags level)
      (.object members) := by
  obtain ⟨g, gap, printed⟩ :=
    @bracketed_eq flags level _ 0x7B 0x7D (memberText libc flags (level + 1)) members
  rw [Json.print, memberTexts_eq, printed]
  cases members with
  | nil =>
    have opened : Reads libc strict (n + 1) .objectOpen none [0x7B] (.object []) := .openObject
    simpa using opened.closeObject (absurd · (by decide)) ((lineEnd_gap flags).append gap)
      (.inr (.inl rfl))
  | cons m members =>
    have add {p : Place} {w g : List UInt8} {done rest : List (List UInt8 × Json δ)}
        {x : List UInt8 × Json δ} (split : m :: members = done ++ x :: rest)
        (reads : Reads libc strict (n + 1) p none w (.object done)) (before : BeforeName p)
        (gap : Gap g) :
        Reads libc strict (n + 1) .member none (w ++ (g ++ memberText libc flags (level + 1) x))
          (.object (done ++ [x])) := by
      have mem : x ∈ m :: members := by
        rw [split]
        simp
      refine member_read (level + 1) reads before gap (plain x mem) ?_ (read x mem)
      -- The names in front are different from this one.
      rw [split, List.map_append, List.map_cons, List.nodup_append'] at distinct
      exact fun again => distinct.2.2 again (List.mem_cons_self ..)
    have all := listed_read (R := fun p w done => Reads libc strict (n + 1) p none w (.object done))
      (memberText libc flags (level + 1)) (front_gap flags (level + 1)) (lineEnd_gap flags)
      (.inr rfl) (fun reads => reads.memberComma .nil) add (List.nil_append _).symm .openObject
      (.inl rfl) (lineEnd_gap flags)
    simpa using all.closeObject (absurd · (by decide)) gap (.inl rfl)

end Containers

/-- The text of a value is read as this value. -/
theorem Kept.reads {n : ℕ} {v : Json δ} (kept : Kept libc flags n v) (level : ℕ) :
    Reads libc strict n .value none (v.print libc flags level) v := by
  induction kept generalizing level with
  | null =>
    rw [Json.print]
    exact .null (by decide)
  | boolean b =>
    rw [Json.print]
    exact .boolean b (by cases b <;> decide)
  | int low high =>
    rw [Json.print]
    exact decimal_reads low high
  | double _ number mark scanned =>
    rw [Json.print]
    exact .double number mark scanned
  | string str =>
    rw [Json.print]
    exact .string (.inl rfl) (escaped_chars str)
  | array _ ih => exact array_read level fun v mem => ih v mem (level + 1)
  | object plain distinct _ ih =>
    exact object_read level plain distinct fun m mem => ih m mem (level + 1)

theorem Kept.doubles {n : ℕ} {v : Json δ} (kept : Kept libc flags n v) :
    ∀ d, .double d ∈ v.parts → IsDecimal (libc.printF d) := by
  induction kept with
  | null | boolean | int | string =>
    intro d part
    simp [Json.parts] at part
  | double usual =>
    intro d part
    simp only [Json.parts, List.mem_singleton, Json.double.injEq] at part
    subst part
    exact usual
  | array _ ih =>
    intro d part
    rw [Json.parts, itemParts_eq, List.mem_cons, List.mem_flatMap] at part
    obtain same | ⟨v, mem, part⟩ := part
    · cases same
    · exact ih v mem d part
  | object _ _ _ ih =>
    intro d part
    rw [Json.parts, memberParts_eq, List.mem_cons, List.mem_flatMap] at part
    obtain same | ⟨m, mem, part⟩ := part
    · cases same
    · exact ih m mem d part

/-- With memory, what `json_object_to_json_string_ext` returns for a value, under any flags, is
parsed to this value by a tokener that is new or has been reset, whatever stands behind the
array. -/
theorem parse_of_toJsonString {libc : Libc δ} {flags : Flags} {heap : ℕ → Heap} {p : Printbuf}
    {tok : Tokener δ} {v : Json δ} (memory : ∀ i, (heap i).grants) (valid : p.Valid)
    (fresh : tok.top = .fresh) (bottom : tok.below = []) (held : tok.pb.length < 2 ^ 29)
    (kept : Kept libc flags tok.maxDepth v) (short : (v.print libc flags 0).length < 2 ^ 26) :
    ∃ buf, jsonObjectToJsonStringExt libc flags heap p v = some buf ∧
      ∀ beyond, ∃ tok', jsonTokenerParseEx libc tok (buf ++ beyond) = some (v, tok') ∧
        tok'.err = .success := by
  obtain ⟨rest, returned, plain⟩ :=
    toJsonString_buf memory valid v kept.doubles (short.trans (by decide))
  refine ⟨_, returned, fun beyond => ?_⟩
  have reads : Reads libc tok.strict tok.maxDepth .value none (v.print libc flags 0) v :=
    kept.reads 0
  have nothing : Ending v [] [] := by
    rintro c ⟨⟩
  have accepted : Accepted libc tok.strict tok.maxDepth (v.print libc flags 0) v := by
    simpa using Accepted.value .nil reads .nil nothing
  rw [List.append_assoc]
  exact accepted.parseEx libc fresh bottom reads.some_level held short plain (rest ++ beyond)

/-- Two levels, with a name and a string that need escapes. -/
theorem parse_of_toJsonString_nested :
    ∃ buf, jsonObjectToJsonStringExt ⟨fun _ : Unit => ascii "0.500000", fun _ => some ()⟩
        ⟨true, true, true⟩ (fun _ => ⟨true, true, fun _ => 0⟩) ⟨List.replicate 32 0, 0⟩
        (.object [([0x22], .array [.double (), .int (-7), .string [0, 0x0A]])]) = some buf ∧
      ∀ beyond, ∃ tok', jsonTokenerParseEx
          ⟨fun _ : Unit => ascii "0.500000", fun _ => some ()⟩ (jsonTokenerNewEx 32 true)
          (buf ++ beyond) =
            some (.object [([0x22], .array [.double (), .int (-7), .string [0, 0x0A]])], tok') ∧
        tok'.err = .success := by
  have usual : IsDecimal (ascii "0.500000") :=
    ⟨by decide, by decide, .inr ⟨ascii "0", 0x2E, ascii "500000", by decide, by decide, by decide,
      by decide, by decide⟩⟩
  have chars : (doubleText true (ascii "0.500000")).all (· ∈ numberChars) := by decide
  have number : NumberText (doubleText true (ascii "0.500000")) :=
    ⟨⟨0x30, by decide, by decide⟩, fun c mem =>
      of_decide_eq_true (List.all_eq_true.mp chars c mem)⟩
  refine parse_of_toJsonString (fun _ => rfl) ⟨by decide, by decide⟩ rfl rfl (by decide) ?_
    (by decide)
  refine .object (by decide) (by decide) (List.forall_mem_singleton.mpr (.array ?_))
  simp only [List.forall_mem_cons]
  exact ⟨.double usual number ⟨0x2E, by decide, by decide⟩ rfl, .int (by decide) (by decide),
    .string _, by simp⟩

end LinuxProgram.JsonC
