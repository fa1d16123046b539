import LinuxProgram.Netlink.AttributeTrees

/-!
# The attributes in arbitrary bytes

`nl_parse_rtattr` is run on whatever a message contains. `attributes` says, in exact
arithmetic, which attributes a run of bytes has: each is announced to end within the run, and
the next one follows behind the padding. The table that the parser fills is the last attribute
of each type (`nlParseRtattr_table`).
-/

namespace LinuxProgram.Netlink

open Base

/-- The offsets of the attributes in the `room` bytes from offset `p` on. -/
def attributes (m : Memory) (p room : ℕ) : List ℕ :=
  if 4 ≤ rtaLen m p ∧ rtaLen m p ≤ room then
    p :: attributes m (p + alignUp (rtaLen m p)) (room - alignUp (rtaLen m p))
  else []
termination_by room
decreasing_by
  have := le_alignUp (rtaLen m p)
  omega

/-- The last attribute of a type. -/
def lastAttr (m : Memory) (p room t : ℕ) : Option ℕ :=
  ((attributes m p room).filter fun rta => rtaType m rta = t).getLast?

/-- The attributes fill the bytes: the last one ends with them, padded or not. -/
def Filled (m : Memory) (p room : ℕ) : Prop :=
  if 4 ≤ rtaLen m p ∧ rtaLen m p ≤ room then
    Filled m (p + alignUp (rtaLen m p)) (room - alignUp (rtaLen m p))
  else room = 0
termination_by room
decreasing_by
  have := le_alignUp (rtaLen m p)
  omega

section Attributes

variable {m : Memory} {p room n t : ℕ}

theorem attributes_cons (size : rtaLen m p = n) (header : 4 ≤ n) (fits : n ≤ room) :
    attributes m p room = p :: attributes m (p + alignUp n) (room - alignUp n) := by
  subst size
  rw [attributes, if_pos ⟨header, fits⟩]

theorem attributes_nil (stop : ¬ (4 ≤ rtaLen m p ∧ rtaLen m p ≤ room)) :
    attributes m p room = [] := by
  rw [attributes, if_neg stop]

theorem filled_cons (size : rtaLen m p = n) (header : 4 ≤ n) (fits : n ≤ room)
    (rest : Filled m (p + alignUp n) (room - alignUp n)) : Filled m p room := by
  subst size
  rw [Filled, if_pos ⟨header, fits⟩]
  exact rest

theorem filled_zero : Filled m p 0 := by
  rw [Filled, if_neg (by omega)]

/-- Every attribute lies inside the bytes. -/
theorem attribute_inside {rta : ℕ} (mem : rta ∈ attributes m p room) :
    p ≤ rta ∧ 4 ≤ rtaLen m rta ∧ rta + rtaLen m rta ≤ p + room := by
  induction p, room using attributes.induct (m := m) with
  | case1 p room fits ih =>
    have lower := le_alignUp (rtaLen m p)
    rw [attributes_cons rfl fits.1 fits.2, List.mem_cons] at mem
    rcases mem with rfl | later
    · omega
    · have := ih later
      omega
  | case2 p room stop =>
    rw [attributes_nil stop] at mem
    cases mem

/-- With more room there are the same attributes first. -/
theorem attributes_mono {room' : ℕ} (more : room ≤ room') {rta : ℕ}
    (mem : rta ∈ attributes m p room) : rta ∈ attributes m p room' := by
  induction p, room using attributes.induct (m := m) generalizing room' with
  | case1 p room fits ih =>
    rw [attributes_cons rfl fits.1 fits.2, List.mem_cons] at mem
    rw [attributes_cons rfl fits.1 (by omega), List.mem_cons]
    exact mem.imp_right (ih (Nat.sub_le_sub_right more _))
  | case2 p room stop =>
    rw [attributes_nil stop] at mem
    cases mem

theorem lastAttr_eq_none : lastAttr m p room t = none ↔
    ∀ rta ∈ attributes m p room, rtaType m rta ≠ t := by
  simp [lastAttr]

theorem lastAttr_mem {rta : ℕ} (last : lastAttr m p room t = some rta) :
    rta ∈ attributes m p room ∧ rtaType m rta = t := by
  simpa using List.mem_of_getLast? last

/-- The first attribute counts unless a later one of its type does. -/
theorem lastAttr_cons (size : rtaLen m p = n) (header : 4 ≤ n) (fits : n ≤ room) :
    lastAttr m p room t = (lastAttr m (p + alignUp n) (room - alignUp n) t).or
      (if rtaType m p = t then some p else none) := by
  rw [lastAttr, lastAttr, attributes_cons size header fits]
  by_cases same : rtaType m p = t
  · rw [List.filter_cons_of_pos (by simpa using same), List.getLast?_cons, if_pos same]
    cases ((attributes m _ _).filter fun rta => rtaType m rta = t).getLast? <;> rfl
  · rw [List.filter_cons_of_neg (by simpa using same), if_neg same, Option.or_none]

theorem lastAttr_nil (stop : ¬ (4 ≤ rtaLen m p ∧ rtaLen m p ≤ room)) :
    lastAttr m p room t = none := by
  rw [lastAttr, attributes_nil stop]
  rfl

theorem fileAttr_apply (m : Memory) (max : ℤ) (rta : ℕ) (tb : AttrTable) :
    fileAttr m max rta tb t =
      if (t : ℤ) ≤ max ∧ rtaType m rta = t then some rta else tb t := by
  rw [fileAttr_eq]
  by_cases same : rtaType m rta = t
  · subst same
    by_cases listed : (rtaType m rta : ℤ) ≤ max <;> simp [listed]
  · rw [if_neg fun both : (t : ℤ) ≤ max ∧ rtaType m rta = t => same both.2]
    split_ifs
    · exact Function.update_of_ne (Ne.symm same) ..
    · rfl

/-- The parser files the last attribute of each type that the table has room for, and leaves
the other entries alone. -/
theorem nlParseRtattr_table {max len : ℤ} (range : len < 2 ^ 31) (tb : AttrTable) :
    (nlParseRtattr m tb max p len).2 t =
      if (t : ℤ) ≤ max then (lastAttr m p len.toNat t).or (tb t) else tb t := by
  generalize counted : len.toNat = room
  -- The parser and the list of attributes step alike.
  induction p, room using attributes.induct (m := m) generalizing len tb with
  | case1 p room fits ih =>
    have lower := le_alignUp (rtaLen m p)
    rw [nlParseRtattr_step rfl fits.1 (by omega) range, ih (by omega) _ (by omega),
      fileAttr_apply, lastAttr_cons rfl fits.1 fits.2]
    by_cases listed : (t : ℤ) ≤ max
    · simp only [listed, true_and, if_true]
      split_ifs
      · rw [Option.or_assoc, Option.some_or]
      · rw [Option.or_none]
    · simp [listed]
  | case2 p room stop =>
    have ends : (rtaCursor m).ok (p, len) = false := by
      rw [← Bool.not_eq_true, rtaCursor_ok rfl]
      omega
    rw [nlParseRtattr_stop ends, lastAttr_nil stop, Option.none_or, ite_self]

/-- The parser on an empty table. -/
theorem nlParseRtattr_last {max len : ℤ} (range : len < 2 ^ 31) (listed : (t : ℤ) ≤ max) :
    (nlParseRtattr m (fun _ => none) max p len).2 t = lastAttr m p len.toNat t := by
  rw [nlParseRtattr_table range, if_pos listed, Option.or_none]

/-- Whatever the parser files is an attribute. -/
theorem nlParseRtattr_mem {max len : ℤ} (range : len < 2 ^ 31) {rta : ℕ}
    (filed : rta ∈ (nlParseRtattr m (fun _ => none) max p len).2 t) :
    rta ∈ attributes m p len.toNat := by
  rw [nlParseRtattr_table range, Option.or_none] at filed
  split_ifs at filed
  · exact (lastAttr_mem filed).1
  · cases filed

end Attributes

end LinuxProgram.Netlink
