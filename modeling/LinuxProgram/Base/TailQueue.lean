import Mathlib.Data.List.Nodup
import Mathlib.Logic.Function.Basic

/-!
# Tail queues

The tail queues of `<sys/queue.h>` on an explicit heap. An element has a pointer to
the next element and the address of the pointer that leads to itself; the head has a
pointer to the first element and the address of the last next pointer. The operations
are the macros, assignment by assignment.

`Linked q xs` says that the pointers are consistent and that following them from the
head visits exactly the elements `xs`, in order, and ends.

## Main results

* `Linked.insertHead`, `Linked.remove` — the operations keep the queue linked
* `forEach_remove` — a `TAILQ_FOREACH` loop that removes elements while it runs, going
  on through the link of an element it has just removed
-/

namespace LinuxProgram.Base

/-- The address of a pointer to an element: `&head->tqh_first` or `&elm->tqe_next`. -/
inductive Slot (L : Type*)
  | first
  | next (x : L)
  deriving DecidableEq

/-- The pointers of a tail queue: those of the head, and those of all elements. -/
structure TailQueue (L : Type*) where
  first : Option L
  last : Slot L
  next : L → Option L
  prev : L → Slot L

namespace TailQueue

section Operations

variable {L : Type*} [DecidableEq L]

/-- Read the pointer at an address. -/
def load (q : TailQueue L) : Slot L → Option L
  | .first => q.first
  | .next x => q.next x

/-- Assign to the pointer at an address. -/
def assign (q : TailQueue L) (slot : Slot L) (value : Option L) : TailQueue L :=
  match slot with
  | .first => { q with first := value }
  | .next x => { q with next := Function.update q.next x value }

/-- `TAILQ_INIT`. -/
def init (q : TailQueue L) : TailQueue L := { q with first := none, last := .first }

/-- `TAILQ_INSERT_HEAD`. -/
def insertHead (q : TailQueue L) (elm : L) : TailQueue L :=
  let q := { q with next := Function.update q.next elm q.first }
  let q := match q.first with
    | some x => { q with prev := Function.update q.prev x (.next elm) }
    | none => { q with last := .next elm }
  let q := { q with first := some elm }
  { q with prev := Function.update q.prev elm .first }

/-- `TAILQ_REMOVE`. -/
def remove (q : TailQueue L) (elm : L) : TailQueue L :=
  let q := match q.next elm with
    | some x => { q with prev := Function.update q.prev x (q.prev elm) }
    | none => { q with last := q.prev elm }
  q.assign (q.prev elm) (q.next elm)

/-- `for (var = ...; var != NULL; var = TAILQ_NEXT(var)) body`, for at most `fuel`
tests of the loop. The next element is read after the body has run. -/
def forEach (body : L → TailQueue L → TailQueue L) :
    (fuel : ℕ) → Option L → TailQueue L → Option (TailQueue L)
  | 0, _, _ => none
  | _ + 1, none, q => some q
  | fuel + 1, some x, q =>
    let q' := body x q
    forEach body fuel (q'.next x) q'

end Operations

/-! ### Linked queues -/

section Linked

variable {L : Type*} {q q' : TailQueue L} {slot : Slot L} {x : L} {xs ys zs : List L}

/-- The pointers from `slot` on lead through `xs`, and each element knows the pointer
that leads to it. -/
def Chain (q : TailQueue L) : Slot L → List L → Prop
  | _, [] => True
  | slot, x :: xs => q.load slot = some x ∧ q.prev x = slot ∧ q.Chain (.next x) xs

/-- The address of the pointer behind the elements `xs`. -/
def endSlot : Slot L → List L → Slot L
  | slot, [] => slot
  | _, x :: xs => endSlot (.next x) xs

/-- The queue consists of the elements `xs`. -/
structure Linked (q : TailQueue L) (xs : List L) : Prop where
  chain : q.Chain .first xs
  ends : q.load (endSlot .first xs) = none
  last : q.last = endSlot .first xs
  nodup : xs.Nodup

theorem chain_append :
    q.Chain slot (ys ++ zs) ↔ q.Chain slot ys ∧ q.Chain (endSlot slot ys) zs := by
  induction ys generalizing slot with
  | nil => simp [Chain, endSlot]
  | cons y ys ih => simp only [List.cons_append, Chain, endSlot, ih, and_assoc]

theorem endSlot_append : endSlot slot (ys ++ zs) = endSlot (endSlot slot ys) zs := by
  induction ys generalizing slot with
  | nil => rfl
  | cons y ys ih => exact ih

/-- The end of a chain is its start or the next pointer of one of its elements. -/
theorem endSlot_cases (slot : Slot L) (xs : List L) :
    endSlot slot xs = slot ∨ ∃ x ∈ xs, endSlot slot xs = .next x := by
  induction xs generalizing slot with
  | nil => exact .inl rfl
  | cons x xs ih =>
    rcases ih (.next x) with same | ⟨y, hy, same⟩
    · exact .inr ⟨x, List.mem_cons_self .., same⟩
    · exact .inr ⟨y, List.mem_cons_of_mem _ hy, same⟩

/-- A chain depends only on the pointer it starts from and on its elements. -/
theorem Chain.congr (chain : q.Chain slot xs) (start : q'.load slot = q.load slot)
    (next : ∀ x ∈ xs, q'.next x = q.next x) (prev : ∀ x ∈ xs, q'.prev x = q.prev x) :
    q'.Chain slot xs := by
  induction xs generalizing slot with
  | nil => trivial
  | cons x xs ih =>
    obtain ⟨leads, back, rest⟩ := chain
    refine ⟨start.trans leads, (prev x (List.mem_cons_self ..)).trans back, ?_⟩
    exact ih rest (next x (List.mem_cons_self ..)) (fun y hy => next y (List.mem_cons_of_mem _ hy))
      fun y hy => prev y (List.mem_cons_of_mem _ hy)

/-- The queue after `TAILQ_INIT`. -/
theorem linked_init (q : TailQueue L) : Linked q.init [] := ⟨trivial, rfl, rfl, List.nodup_nil⟩

namespace Linked

/-- The pointer that leads to a place in the queue is not one of a later element. -/
theorem next_ne_endSlot (linked : Linked q (ys ++ zs)) (later : x ∈ zs) :
    .next x ≠ endSlot .first ys := by
  intro same
  rcases endSlot_cases .first ys with hend | ⟨y, hy, hend⟩
  · cases same.trans hend
  · cases same.trans hend
    exact List.disjoint_of_nodup_append linked.nodup hy later

theorem first_eq (linked : Linked q xs) : q.first = xs.head? := by
  cases xs with
  | nil => exact linked.ends
  | cons x xs => exact linked.chain.1

theorem prev_eq (linked : Linked q (ys ++ x :: zs)) : q.prev x = endSlot .first ys :=
  (chain_append.mp linked.chain).2.2.1

theorem next_eq (linked : Linked q (ys ++ x :: zs)) : q.next x = zs.head? := by
  cases zs with
  | nil =>
    have ends := linked.ends
    rw [endSlot_append] at ends
    exact ends
  | cons z zs => exact (chain_append.mp linked.chain).2.2.2.1

end Linked

end Linked

/-! ### The operations keep the queue linked -/

section Preservation

variable {L : Type*} [DecidableEq L] {q : TailQueue L} {slot : Slot L} {x : L} {xs ys zs : List L}

@[simp] theorem load_assign_same (value : Option L) : (q.assign slot value).load slot = value := by
  cases slot with
  | first => rfl
  | next x => exact Function.update_self ..

theorem load_assign_of_ne {other : Slot L} (apart : other ≠ slot) (value : Option L) :
    (q.assign slot value).load other = q.load other := by
  cases slot with
  | first =>
    cases other with
    | first => exact absurd rfl apart
    | next y => rfl
  | next x =>
    cases other with
    | first => rfl
    | next y => exact Function.update_of_ne (fun same => apart (congrArg Slot.next same)) ..

@[simp] theorem prev_assign (value : Option L) : (q.assign slot value).prev = q.prev := by
  cases slot <;> rfl

@[simp] theorem last_assign (value : Option L) : (q.assign slot value).last = q.last := by
  cases slot <;> rfl

theorem next_assign_of_ne (apart : .next x ≠ slot) (value : Option L) :
    (q.assign slot value).next x = q.next x := by
  change (q.assign slot value).load (.next x) = q.load (.next x)
  exact load_assign_of_ne apart value

/-- The last pointer of a chain can be changed without changing the chain. -/
theorem Chain.assign_end (chain : q.Chain slot xs) (nodup : xs.Nodup)
    (apart : ∀ x ∈ xs, slot ≠ .next x) (value : Option L) :
    (q.assign (endSlot slot xs) value).Chain slot xs := by
  induction xs generalizing slot with
  | nil => trivial
  | cons x xs ih =>
    obtain ⟨leads, back, rest⟩ := chain
    obtain ⟨fresh, nodup⟩ := List.nodup_cons.mp nodup
    refine ⟨?_, ?_, ih rest nodup ?_⟩
    · rw [load_assign_of_ne, leads]
      -- The start of the chain is not its end, because the chain is not empty.
      intro same
      rcases endSlot_cases (.next x) xs with hend | ⟨y, hy, hend⟩
      · exact apart x (List.mem_cons_self ..) (same.trans hend)
      · exact apart y (List.mem_cons_of_mem _ hy) (same.trans hend)
    · rw [prev_assign, back]
    · rintro y hy same
      cases same
      exact fresh hy

namespace Linked

/-- Inserting a new element in front. -/
theorem insertHead (linked : Linked q xs) (fresh : x ∉ xs) : Linked (q.insertHead x) (x :: xs) := by
  obtain ⟨chain, ends, last, nodup⟩ := linked
  cases xs with
  | nil =>
    have empty : q.first = none := ends
    have effect : q.insertHead x =
        { first := some x, last := .next x, next := Function.update q.next x none,
          prev := Function.update q.prev x .first } := by
      simp only [TailQueue.insertHead, empty]
    rw [effect]
    exact ⟨⟨rfl, Function.update_self .., trivial⟩, Function.update_self .., rfl,
      List.nodup_singleton x⟩
  | cons y xs =>
    obtain ⟨leads, back, rest⟩ := chain
    have first : q.first = some y := leads
    have apart : y ≠ x := ne_of_mem_of_not_mem (List.mem_cons_self ..) fresh
    obtain ⟨fresh_y, -⟩ := List.nodup_cons.mp nodup
    have effect : q.insertHead x =
        { first := some x, last := q.last, next := Function.update q.next x (some y),
          prev := Function.update (Function.update q.prev y (.next x)) x .first } := by
      simp only [TailQueue.insertHead, first]
    have next : ∀ z ∈ y :: xs, (q.insertHead x).next z = q.next z := by
      intro z hz
      rw [effect]
      exact Function.update_of_ne (ne_of_mem_of_not_mem hz fresh) ..
    have prev : ∀ z ∈ xs, (q.insertHead x).prev z = q.prev z := by
      intro z hz
      rw [effect]
      dsimp only
      rw [Function.update_of_ne (ne_of_mem_of_not_mem (List.mem_cons_of_mem _ hz) fresh),
        Function.update_of_ne (ne_of_mem_of_not_mem hz fresh_y)]
    have tail : (q.insertHead x).Chain (.next y) xs :=
      rest.congr (next y (List.mem_cons_self ..))
        (fun z hz => next z (List.mem_cons_of_mem _ hz)) prev
    refine ⟨⟨?_, ?_, ?_, ?_, tail⟩, ?_, ?_, List.nodup_cons.mpr ⟨fresh, nodup⟩⟩
    · rw [effect]
      rfl
    · rw [effect]
      exact Function.update_self ..
    · rw [effect]
      exact Function.update_self ..
    · rw [effect]
      dsimp only
      rw [Function.update_of_ne apart, Function.update_self]
    · -- The end is the next pointer of an old element.
      change (q.insertHead x).load (endSlot (.next y) xs) = none
      have old : q.load (endSlot (.next y) xs) = none := ends
      rcases endSlot_cases (.next y) xs with hend | ⟨z, hz, hend⟩
      · rw [hend] at old ⊢
        exact (next y (List.mem_cons_self ..)).trans old
      · rw [hend] at old ⊢
        exact (next z (List.mem_cons_of_mem _ hz)).trans old
    · rw [effect]
      exact last

/-- Removing an element does not change its own next pointer, so that a loop can go on
through it. -/
theorem next_remove (linked : Linked q (ys ++ x :: zs)) : (q.remove x).next x = zs.head? := by
  have apart := linked.next_ne_endSlot (List.mem_cons_self (a := x))
  rw [← linked.prev_eq] at apart
  rw [← linked.next_eq]
  cases next : q.next x with
  | none =>
    simp only [TailQueue.remove, next]
    rw [next_assign_of_ne apart, next]
  | some z =>
    have other : z ≠ x := by
      have nodup := (List.nodup_append'.mp linked.nodup).2.1
      have member : z ∈ zs := List.mem_of_mem_head? (linked.next_eq ▸ next)
      exact ne_of_mem_of_not_mem member (List.nodup_cons.mp nodup).1
    simp only [TailQueue.remove, next, Function.update_of_ne other.symm]
    rw [next_assign_of_ne apart, next]

/-- Removing an element, wherever it stands. -/
theorem remove (linked : Linked q (ys ++ x :: zs)) : Linked (q.remove x) (ys ++ zs) := by
  have prev := linked.prev_eq
  have next := linked.next_eq
  have later : ∀ z ∈ zs, .next z ≠ endSlot .first ys := fun z hz =>
    linked.next_ne_endSlot (List.mem_cons_of_mem _ hz)
  obtain ⟨chain, ends, last, nodup⟩ := linked
  obtain ⟨before, -, -, after⟩ := chain_append.mp chain
  obtain ⟨nodup_ys, nodup_xzs, disjoint⟩ := List.nodup_append'.mp nodup
  have nodup' : (ys ++ zs).Nodup :=
    nodup.sublist ((List.sublist_cons_self x zs).append_left ys)
  cases zs with
  | nil =>
    -- The element was the last one: its predecessor's pointer is the new last pointer.
    have effect : q.remove x =
        { q with last := endSlot .first ys }.assign (endSlot .first ys) none := by
      simp only [TailQueue.remove, next, List.head?_nil, prev]
    have front : { q with last := endSlot .first ys }.Chain .first ys :=
      before.congr rfl (fun _ _ => rfl) fun _ _ => rfl
    rw [effect, List.append_nil]
    exact ⟨front.assign_end nodup_ys (fun _ _ => nofun) none, load_assign_same none,
      last_assign none, nodup_ys⟩
  | cons z zs =>
    obtain ⟨fresh_z, -⟩ := List.nodup_cons.mp (List.nodup_cons.mp nodup_xzs).2
    set slot := endSlot .first ys
    have effect : q.remove x =
        { q with prev := Function.update q.prev z slot }.assign slot (some z) := by
      have other : x ≠ z := fun same => (List.nodup_cons.mp nodup_xzs).1 (same ▸ List.mem_cons_self)
      simp only [TailQueue.remove, next, List.head?_cons, prev, Function.update_of_ne other]
    have next_kept : ∀ w ∈ z :: zs, (q.remove x).next w = q.next w := by
      intro w hw
      rw [effect, next_assign_of_ne (later w hw)]
    have prev_kept : ∀ w, w ≠ z → (q.remove x).prev w = q.prev w := by
      intro w other
      rw [effect, prev_assign]
      exact Function.update_of_ne other ..
    have front : { q with prev := Function.update q.prev z slot }.Chain .first ys := by
      refine before.congr rfl (fun _ _ => rfl) fun y hy => Function.update_of_ne ?_ ..
      rintro rfl
      exact disjoint hy (List.mem_cons_of_mem _ List.mem_cons_self)
    have front : (q.remove x).Chain .first ys := by
      rw [effect]
      exact front.assign_end nodup_ys (fun _ _ => nofun) (some z)
    have back : (q.remove x).Chain slot (z :: zs) := by
      refine ⟨?_, ?_, after.2.2.congr (next_kept z List.mem_cons_self)
        (fun w hw => next_kept w (List.mem_cons_of_mem _ hw))
        fun w hw => prev_kept w (ne_of_mem_of_not_mem hw fresh_z)⟩
      · rw [effect, load_assign_same]
      · rw [effect, prev_assign]
        exact Function.update_self ..
    refine ⟨chain_append.mpr ⟨front, back⟩, ?_, ?_, nodup'⟩
    · rw [endSlot_append] at ends ⊢
      change q.load (endSlot (.next z) zs) = none at ends
      change (q.remove x).load (endSlot (.next z) zs) = none
      rcases endSlot_cases (.next z) zs with hend | ⟨w, hw, hend⟩
      · rw [hend] at ends ⊢
        exact (next_kept z List.mem_cons_self).trans ends
      · rw [hend] at ends ⊢
        exact (next_kept w (List.mem_cons_of_mem _ hw)).trans ends
    · rw [endSlot_append] at last ⊢
      rw [effect, last_assign]
      exact last

end Linked

/-- A `TAILQ_FOREACH` loop that removes every element with property `p`, seen from the
place it has reached: the elements before that place are `ys`, those to come are `zs`. -/
theorem forEach_remove_from (p : L → Prop) [DecidablePred p] {fuel : ℕ}
    (linked : Linked q (ys ++ zs)) (enough : zs.length < fuel) :
    ∃ q', forEach (fun x q => if p x then q.remove x else q) fuel zs.head? q = some q' ∧
      Linked q' (ys ++ zs.filter (¬ p ·)) := by
  -- Induction on the elements to come: an element that stays joins those before.
  induction zs generalizing fuel q ys with
  | nil =>
    obtain ⟨fuel, rfl⟩ := Nat.exists_eq_add_one_of_ne_zero (Nat.ne_zero_of_lt enough)
    exact ⟨q, rfl, linked⟩
  | cons x zs ih =>
    obtain ⟨fuel, rfl⟩ := Nat.exists_eq_add_one_of_ne_zero (Nat.ne_zero_of_lt enough)
    have enough' : zs.length < fuel := Nat.lt_of_succ_lt_succ enough
    rw [List.head?_cons, forEach]
    by_cases goes : p x
    · simp only [if_pos goes, linked.next_remove]
      obtain ⟨q', result, linked'⟩ := ih linked.remove enough'
      refine ⟨q', result, ?_⟩
      rwa [List.filter_cons_of_neg (by simpa using goes)]
    · simp only [if_neg goes, linked.next_eq]
      rw [List.append_cons] at linked
      obtain ⟨q', result, linked'⟩ := ih linked enough'
      refine ⟨q', result, ?_⟩
      rwa [List.filter_cons_of_pos (by simpa using goes), List.append_cons]

/-- A `TAILQ_FOREACH` loop over the whole queue that removes every element with property
`p`. -/
theorem forEach_remove (p : L → Prop) [DecidablePred p] {fuel : ℕ} (linked : Linked q xs)
    (enough : xs.length < fuel) :
    ∃ q', forEach (fun x q => if p x then q.remove x else q) fuel q.first q = some q' ∧
      Linked q' (xs.filter (¬ p ·)) := by
  have whole : Linked q ([] ++ xs) := linked
  rw [linked.first_eq]
  exact forEach_remove_from p whole enough

end Preservation

end TailQueue

end LinuxProgram.Base
