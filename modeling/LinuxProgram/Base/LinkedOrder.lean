import Mathlib.Data.List.Nodup
import Mathlib.Logic.Function.Basic

/-!
# Doubly linked lists

A head, a tail, and for every element a pointer to the next and to the previous one.
Operations fail where a program would follow a null pointer.

`Linked` says which list the pointers represent; appending, removing and walking are
then appending, erasing and folding.
-/

namespace LinuxProgram.Base

/-- The pointers of a doubly linked list. -/
structure DoubleList (L : Type*) where
  head : Option L
  tail : Option L
  next : L → Option L
  prev : L → Option L

namespace DoubleList

variable {L σ : Type*}

/-- A list without elements. -/
def nil : DoubleList L := ⟨none, none, fun _ => none, fun _ => none⟩

section Operations

variable [DecidableEq L]

/-- Append an element. -/
def pushBack (d : DoubleList L) (x : L) : Option (DoubleList L) :=
  if d.head = none then
    some
      { head := some x
        tail := some x
        next := Function.update d.next x none
        prev := Function.update d.prev x none }
  else
    d.tail.map fun last =>
      { d with
        next := Function.update (Function.update d.next last (some x)) x none
        prev := Function.update d.prev x (some last)
        tail := some x }

/-- Take an element out of its neighbours' pointers. -/
def unlink (d : DoubleList L) (x : L) : Option (DoubleList L) :=
  if d.tail = some x ∧ d.head = some x then some { d with head := none, tail := none }
  else if d.head = some x then
    (d.next x).map fun second =>
      { d with prev := Function.update d.prev second none, head := some second }
  else if d.tail = some x then
    (d.prev x).map fun last =>
      { d with next := Function.update d.next last none, tail := some last }
  else do
    let before ← d.prev x
    let next := Function.update d.next before (d.next x)
    let after ← next x
    some { d with next, prev := Function.update d.prev after (d.prev x) }

/-- Remove an element and clear its own pointers. -/
def remove (d : DoubleList L) (x : L) : Option (DoubleList L) :=
  (d.unlink x).map fun d =>
    { d with next := Function.update d.next x none, prev := Function.update d.prev x none }

end Operations

/-- Walk from an element to the end, at most `fuel` elements. -/
def walk (d : DoubleList L) (body : σ → L → Option σ) : (fuel : ℕ) → Option L → σ → Option σ
  | 0, _, _ => none
  | _ + 1, none, s => some s
  | fuel + 1, some x, s => (body s x).bind (d.walk body fuel (d.next x))

/-! ### The list that the pointers represent -/

/-- The pointers of `xs`, between two neighbours. -/
def Chain (d : DoubleList L) : (before : Option L) → List L → (after : Option L) → Prop
  | _, [], _ => True
  | before, x :: xs, after =>
    d.prev x = before ∧ d.next x = xs.head?.or after ∧ d.Chain (some x) xs after

/-- `d.Linked xs`: the list consists of the elements `xs`, in this order. -/
structure Linked (d : DoubleList L) (xs : List L) : Prop where
  head : d.head = xs.head?
  tail : d.tail = xs.getLast?
  chain : d.Chain none xs none
  nodup : xs.Nodup

theorem linked_nil : (nil : DoubleList L).Linked [] := ⟨rfl, rfl, trivial, List.nodup_nil⟩

variable {d d' : DoubleList L} {xs ys zs : List L} {x : L} {before after : Option L}

theorem chain_append :
    d.Chain before (xs ++ ys) after ↔
      d.Chain before xs (ys.head?.or after) ∧ d.Chain (xs.getLast?.or before) ys after := by
  induction xs generalizing before with
  | nil => simp [Chain]
  | cons x xs ih =>
    have last : ((x :: xs).getLast?).or before = xs.getLast?.or (some x) := by
      rw [List.getLast?_cons]
      cases xs.getLast? <;> rfl
    have first : (xs ++ ys).head?.or after = xs.head?.or (ys.head?.or after) := by
      rw [List.head?_append, Option.or_assoc]
    rw [List.cons_append, Chain, Chain, ih, last, first, and_assoc, and_assoc]

/-- Only the pointers of the elements matter. -/
theorem Chain.congr (chain : d.Chain before xs after)
    (same : ∀ y ∈ xs, d'.next y = d.next y ∧ d'.prev y = d.prev y) :
    d'.Chain before xs after := by
  induction xs generalizing before with
  | nil => trivial
  | cons y ys ih =>
    obtain ⟨prev, next, rest⟩ := chain
    obtain ⟨next', prev'⟩ := same y (by simp)
    refine ⟨prev'.trans prev, next'.trans next, ih rest fun z mem => same z (by simp [mem])⟩

/-- What stands around an element. -/
theorem Linked.split (linked : d.Linked (ys ++ x :: zs)) :
    d.Chain none ys (some x) ∧ d.prev x = ys.getLast? ∧ d.next x = zs.head? ∧
      d.Chain (some x) zs none ∧ x ∉ ys ∧ x ∉ zs ∧ ys.Disjoint zs := by
  have chain := linked.chain
  rw [chain_append, Chain] at chain
  obtain ⟨front, prev, next, back⟩ := chain
  have nodup := linked.nodup
  rw [List.nodup_append', List.nodup_cons, List.disjoint_cons_right] at nodup
  obtain ⟨-, ⟨absent, -⟩, absent', apart⟩ := nodup
  exact ⟨front, by simpa using prev, by simpa using next, back, absent', absent, apart⟩

section Rules

variable [DecidableEq L]

theorem Linked.pushBack (linked : d.Linked xs) (fresh : x ∉ xs) :
    ∃ d', d.pushBack x = some d' ∧ d'.Linked (xs ++ [x]) := by
  have nodup : (xs ++ [x]).Nodup := by
    rw [List.nodup_append']
    exact ⟨linked.nodup, List.nodup_singleton x, by simpa using fresh⟩
  obtain rfl | ⟨front, last, rfl⟩ := List.eq_nil_or_concat' xs
  · refine ⟨_, if_pos linked.head, rfl, rfl, ?_, nodup⟩
    simp [Chain]
  · obtain ⟨chain, prev, -, -, absent, -, -⟩ := linked.split
    have some_head : d.head ≠ none := by simp [linked.head]
    have tail : d.tail = some last := by simp [linked.tail]
    have apart : last ≠ x := fun same => fresh (by simp [same])
    refine ⟨_, (if_neg some_head).trans (by rw [tail, Option.map_some]), ?_, ?_, ?_, nodup⟩
    · simp [linked.head]
    · simp
    · -- Among the old elements only the last one gets another pointer.
      rw [chain_append, chain_append]
      refine ⟨⟨Chain.congr chain fun y mem => ?_, ?_⟩, ?_⟩
      · have : y ≠ last := fun same => absent (same ▸ mem)
        have : y ≠ x := fun same => fresh (by simp [← same, mem])
        simp [*]
      · simp [Chain, apart, prev]
      · simp [Chain]

theorem unlink_only (tail : d.tail = some x) (head : d.head = some x) :
    d.unlink x = some { d with head := none, tail := none } :=
  if_pos ⟨tail, head⟩

theorem unlink_head {second : L} (tail : d.tail ≠ some x) (head : d.head = some x)
    (next : d.next x = some second) :
    d.unlink x = some
      { d with prev := Function.update d.prev second none, head := some second } := by
  rw [unlink, if_neg fun both => tail both.1, if_pos head, next, Option.map_some]

theorem unlink_tail {last : L} (tail : d.tail = some x) (head : d.head ≠ some x)
    (prev : d.prev x = some last) :
    d.unlink x = some { d with next := Function.update d.next last none, tail := some last } := by
  rw [unlink, if_neg fun both => head both.2, if_neg head, if_pos tail, prev, Option.map_some]

theorem unlink_inner {last second : L} (tail : d.tail ≠ some x) (head : d.head ≠ some x)
    (prev : d.prev x = some last) (next : d.next x = some second) (apart : x ≠ last) :
    d.unlink x = some
      { d with
        next := Function.update d.next last (some second)
        prev := Function.update d.prev second (some last) } := by
  rw [unlink, if_neg fun both => head both.2, if_neg head, if_neg tail, prev]
  simp [Function.update_of_ne apart, next]

/-- Taking an element out closes the gap between its neighbours. -/
theorem Linked.unlink (linked : d.Linked (ys ++ x :: zs)) :
    ∃ d', d.unlink x = some d' ∧ d'.Linked (ys ++ zs) := by
  obtain ⟨front, prev, next, back, absent, absent', apart⟩ := linked.split
  have nodup : (ys ++ zs).Nodup :=
    linked.nodup.sublist ((List.sublist_cons_self x zs).append_left ys)
  have head := linked.head
  have tail := linked.tail
  obtain rfl | ⟨ys, last, rfl⟩ := List.eq_nil_or_concat' ys
  · cases zs with
    | nil => exact ⟨_, unlink_only tail head, rfl, rfl, trivial, nodup⟩
    | cons second zs =>
      have not_tail : d.tail ≠ some x := by
        intro same
        rw [tail, List.nil_append, List.getLast?_cons_cons] at same
        exact absent' (List.mem_of_getLast? same)
      obtain ⟨-, second_next, rest⟩ := back
      refine ⟨_, unlink_head not_tail head next, rfl, by simpa using tail,
        ⟨Function.update_self _ _ _, second_next, Chain.congr rest fun y mem => ⟨rfl, ?_⟩⟩, nodup⟩
      exact Function.update_of_ne (ne_of_mem_of_not_mem mem (List.nodup_cons.mp nodup).1) _ _
  · have not_head : d.head ≠ some x := by
      intro same
      rw [head, List.head?_append_of_ne_nil _ (by simp)] at same
      exact absent (List.mem_of_head? same)
    rw [List.getLast?_concat] at prev
    rw [chain_append] at front
    obtain ⟨front, last_prev, -, -⟩ := front
    have absent_last : last ∉ ys := by
      have front := (List.nodup_append'.mp nodup).1
      exact (List.nodup_concat _ _).mp (by rwa [List.concat_eq_append]) |>.1
    cases zs with
    | nil =>
      refine ⟨_, unlink_tail (by simp [tail]) not_head prev, ?_, by simp, ?_, nodup⟩
      · rw [head, List.append_nil, List.head?_append_of_ne_nil _ (by simp)]
      · rw [List.append_nil, chain_append]
        refine ⟨Chain.congr front fun y mem => ⟨?_, rfl⟩, last_prev,
          Function.update_self _ _ _, trivial⟩
        exact Function.update_of_ne (ne_of_mem_of_not_mem mem absent_last) _ _
    | cons second zs =>
      have not_tail : d.tail ≠ some x := by
        intro same
        rw [tail, List.getLast?_append_of_ne_nil _ (by simp), List.getLast?_cons_cons] at same
        exact absent' (List.mem_of_getLast? same)
      obtain ⟨-, second_next, rest⟩ := back
      have apart_x : x ≠ last := fun same => absent (by simp [same])
      have apart_second : second ∉ ys ++ [last] := fun mem => apart mem List.mem_cons_self
      have apart_last : last ∉ second :: zs := apart (by simp)
      have absent_second : second ∉ zs := (List.nodup_cons.mp (List.nodup_append'.mp nodup).2.1).1
      refine ⟨_, unlink_inner not_tail not_head prev next apart_x, ?_, ?_, ?_, nodup⟩
      · simp [head]
      · simp [tail, List.getLast?_cons_cons]
      · -- The new pointers are those of the two neighbours.
        rw [chain_append, chain_append]
        refine ⟨⟨Chain.congr front fun y mem => ⟨?_, ?_⟩, ?_, ?_, trivial⟩, ?_, ?_,
          Chain.congr rest fun y mem => ⟨?_, ?_⟩⟩
        · exact Function.update_of_ne (ne_of_mem_of_not_mem mem absent_last) _ _
        · exact Function.update_of_ne (fun same => apart_second (by simp [← same, mem])) _ _
        · rw [← last_prev]
          exact Function.update_of_ne (fun same => apart_second (by simp [same])) _ _
        · exact Function.update_self _ _ _
        · simp
        · rw [← second_next]
          exact Function.update_of_ne (fun same => apart_last (by simp [same])) _ _
        · exact Function.update_of_ne (fun same => apart_last (by simp [← same, mem])) _ _
        · exact Function.update_of_ne (ne_of_mem_of_not_mem mem absent_second) _ _

theorem Linked.remove (linked : d.Linked (ys ++ x :: zs)) :
    ∃ d', d.remove x = some d' ∧ d'.Linked (ys ++ zs) := by
  obtain ⟨-, -, -, -, absent, absent', -⟩ := linked.split
  obtain ⟨e, unlinked, rest⟩ := linked.unlink
  refine ⟨_, congrArg (Option.map _) unlinked, rest.head, rest.tail,
    Chain.congr rest.chain fun y mem => ?_, rest.nodup⟩
  have apart : y ≠ x := fun same => (List.mem_append.mp mem).elim (same ▸ absent) (same ▸ absent')
  exact ⟨Function.update_of_ne apart _ _, Function.update_of_ne apart _ _⟩

end Rules

/-- A walk is a fold. -/
theorem Chain.walk {body : σ → L → Option σ} {fuel : ℕ} (chain : d.Chain before xs none)
    (enough : xs.length < fuel) (s : σ) : d.walk body fuel xs.head? s = xs.foldlM body s := by
  induction xs generalizing before fuel s with
  | nil =>
    cases fuel with
    | zero => exact absurd enough (Nat.not_lt_zero _)
    | succ fuel => rfl
  | cons x xs ih =>
    cases fuel with
    | zero => exact absurd enough (Nat.not_lt_zero _)
    | succ fuel =>
      obtain ⟨-, next, rest⟩ := chain
      rw [Option.or_none] at next
      rw [List.head?_cons, DoubleList.walk, next, List.foldlM_cons]
      congr 1
      funext s'
      exact ih rest (Nat.lt_of_succ_lt_succ enough) s'

end DoubleList

end LinuxProgram.Base
