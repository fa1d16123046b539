import LinuxProgram.Base.LinkedOrder
import LinuxProgram.Base.Probing
import LinuxProgram.Base.Words
import Mathlib.Data.List.Perm.Subperm

/-!
# The hash tables of json-c

`json-c-0.11/linkhash.c` keeps the members of a JSON object: a table with open
addressing whose entries are also linked in the order in which they came. The table is
doubled when two thirds of it are taken.

An `lh_entry` is an index into the table; keys, values and links are kept in maps of
their own. A key is what the table's functions compare, so that `equal_fn` is equality;
a value is a pointer, and the default value is `NULL`. `none` as the result of an
operation stands for a loop that does not end, a null pointer that is followed or a
size or count that is no `int`. There is always memory, and the counters that nothing
reads are left out.

## Main definitions

* `Table`, `lhTableInsert`, `lhTableLookupEntry`, `lhTableDelete` — the table
* `jsonObjectObjectAdd`, … — the functions of `json_object.c` on the members of an object
* `Members` — an object as the list of its members

## Main results

* `Holds.insert`, `Holds.delete`, `Holds.lookup` — what the operations do to the list that
  a table holds
* `object_refines` — along every run of at most `2 ^ 29` calls, an object behaves as the list
  of its members
-/

namespace LinuxProgram.JsonC

open Base

/-- `struct lh_table`. -/
structure Table (κ ν : Type) where
  size : ℕ
  count : ℕ
  keys : ℕ → Cell κ
  values : ℕ → ν
  links : DoubleList ℕ
  hashFn : κ → ℕ

variable {κ ν : Type}

namespace Table

/-- The key and value of an entry that is in use. -/
def entry (t : Table κ ν) (n : ℕ) : Option (κ × ν) :=
  match t.keys n with
  | .key k => some (k, t.values n)
  | _ => none

/-- `t->count >= t->size * LH_LOAD_FACTOR`. The product is exact enough in a `double`: it is
compared with a whole number. -/
def Loaded (t : Table κ ν) : Prop := 66 * t.size ≤ 100 * t.count

instance (t : Table κ ν) : Decidable t.Loaded := inferInstanceAs (Decidable (_ ≤ _))

end Table

/-- `lh_table_new`. -/
def lhTableNew [Inhabited ν] (size : ℕ) (hashFn : κ → ℕ) : Table κ ν where
  size := size
  count := 0
  keys _ := .empty
  values _ := default
  links := .nil
  hashFn := hashFn

/-- `lh_table_insert` behind the check of the load. -/
def place (fuel : ℕ) (t : Table κ ν) (k : κ) (v : ν) : Option (Table κ ν) := do
  let n ← vacancy t.hashFn t.size t.keys fuel k
  let links ← t.links.pushBack n
  let count ← asInt (t.count + 1)
  some
    { t with
      keys := Function.update t.keys n (.key k)
      values := Function.update t.values n v
      count
      links }

/-- `lh_table_resize`, given what inserts an entry. The count is not changed. -/
def resizeBy [Inhabited ν] (insert : Table κ ν → κ → ν → Option (Table κ ν)) (fuel : ℕ)
    (t : Table κ ν) (newSize : ℕ) : Option (Table κ ν) := do
  let copied ← t.links.walk (fun s n => (t.entry n).bind fun e => insert s e.1 e.2) fuel
    t.links.head (lhTableNew newSize t.hashFn)
  some
    { t with
      keys := copied.keys
      values := copied.values
      size := newSize
      links := copied.links }

/-- `lh_table_insert`. It calls `lh_table_resize`, which calls it again. -/
def lhTableInsert [Inhabited ν] : (fuel : ℕ) → Table κ ν → κ → ν → Option (Table κ ν)
  | 0, _, _, _ => none
  | fuel + 1, t, k, v => do
    let t ←
      if t.Loaded then (asInt (t.size * 2)).bind (resizeBy (lhTableInsert fuel) fuel t)
      else some t
    place fuel t k v

/-- `lh_table_resize`. -/
def lhTableResize [Inhabited ν] (fuel : ℕ) (t : Table κ ν) (newSize : ℕ) : Option (Table κ ν) :=
  resizeBy (lhTableInsert fuel) fuel t newSize

/-- `lh_table_lookup_entry`. -/
def lhTableLookupEntry [DecidableEq κ] (t : Table κ ν) (k : κ) : Option ℕ :=
  seek t.hashFn t.size t.keys k

/-- `lh_table_lookup_ex`: whether the key was found, and `*v`. -/
def lhTableLookupEx [DecidableEq κ] [Inhabited ν] (t : Table κ ν) (k : κ) : Bool × ν :=
  match lhTableLookupEntry t k with
  | some e => (true, t.values e)
  | none => (false, default)

/-- `lh_table_delete_entry`: the table and the result. -/
def lhTableDeleteEntry [Inhabited ν] (t : Table κ ν) (e : ℕ) : Option (Table κ ν × ℤ) :=
  match t.keys e with
  | .empty | .freed => some (t, -1)
  | .key _ =>
    (t.links.remove e).map fun links =>
      ({ t with
          count := t.count - 1
          values := Function.update t.values e default
          keys := Function.update t.keys e .freed
          links }, 0)

/-- `lh_table_delete`. -/
def lhTableDelete [DecidableEq κ] [Inhabited ν] (t : Table κ ν) (k : κ) : Option (Table κ ν × ℤ) :=
  match lhTableLookupEntry t k with
  | none => some (t, -1)
  | some e => lhTableDeleteEntry t e

/-- `lh_table_length`. -/
def lhTableLength (t : Table κ ν) : ℕ := t.count

/-- `lh_foreach`: the entries in the order of the links. -/
def lhForeach (fuel : ℕ) (t : Table κ ν) : Option (List (κ × ν)) :=
  t.links.walk (fun seen n => (t.entry n).map fun e => seen ++ [e]) fuel t.links.head []

/-! ### The list that a table holds -/

/-- `t.Holds order l`: the entries of the table are `l`, and `order` are their indices. -/
structure Table.Holds (t : Table κ ν) (order : List ℕ) (l : List (κ × ν)) : Prop where
  pos : 0 < t.size
  linked : t.links.Linked order
  inside : ∀ n ∈ order, n < t.size
  entries : order.map t.entry = l.map some
  taken : ∀ n < t.size, ∀ k, t.keys n = .key k → n ∈ order
  reached : Reached t.hashFn t.size t.keys
  distinct : (l.map Prod.fst).Nodup
  count : t.count = l.length

variable {t : Table κ ν} {order : List ℕ} {l : List (κ × ν)} {n fuel : ℕ} {k : κ}
  {v : ν}

theorem place_eq {links : DoubleList ℕ} (found : vacancy t.hashFn t.size t.keys fuel k = some n)
    (pushed : t.links.pushBack n = some links) (small : t.count + 1 < 2 ^ 31) :
    place fuel t k v = some
      { t with
        keys := Function.update t.keys n (.key k)
        values := Function.update t.values n v
        count := t.count + 1
        links } := by
  rw [place, found]
  simp [pushed, asInt_of_lt small]

namespace Table

theorem entry_of_key (at_n : t.keys n = .key k) : t.entry n = some (k, t.values n) := by
  rw [entry, at_n]

theorem entry_eq_some_iff : t.entry n = some (k, v) ↔ t.keys n = .key k ∧ t.values n = v := by
  rw [entry]
  cases t.keys n <;> simp

namespace Holds

theorem holds_new [Inhabited ν] (hashFn : κ → ℕ) {size : ℕ} (pos : 0 < size) :
    (lhTableNew size hashFn : Table κ ν).Holds [] [] where
  pos := pos
  linked := DoubleList.linked_nil
  inside := nofun
  entries := rfl
  taken := nofun
  reached := reached_empty
  distinct := List.nodup_nil
  count := rfl

theorem length_eq (holds : t.Holds order l) : order.length = l.length := by
  simpa using congrArg List.length holds.entries

theorem exists_entry (holds : t.Holds order l) (mem : n ∈ order) : ∃ e ∈ l, t.entry n = some e := by
  have listed : t.entry n ∈ l.map some := holds.entries ▸ List.mem_map_of_mem mem
  obtain ⟨e, listed, same⟩ := List.mem_map.mp listed
  exact ⟨e, listed, same.symm⟩

/-- A key has one entry. -/
theorem unique (holds : t.Holds order l) {m : ℕ} (first : n < t.size) (second : m < t.size)
    (at_n : t.keys n = .key k) (at_m : t.keys m = .key k) : m = n := by
  have keys : order.map (fun n => (t.entry n).map Prod.fst) = (l.map Prod.fst).map some := by
    have := congrArg (List.map (Option.map Prod.fst)) holds.entries
    simpa [Function.comp_def] using this
  have nodup : (order.map fun n => (t.entry n).map Prod.fst).Nodup := by
    rw [keys]
    exact holds.distinct.map (Option.some_injective κ)
  have mem_m := holds.taken m second k at_m
  have mem_n := holds.taken n first k at_n
  refine List.inj_on_of_nodup_map nodup mem_m mem_n ?_
  rw [entry_of_key at_n, entry_of_key at_m]
  rfl

/-- A table that is not full has a cell that is not taken. -/
theorem exists_free (holds : t.Holds order l) (room : t.count < t.size) :
    ∃ n < t.size, ∀ k, t.keys n ≠ .key k := by
  by_contra all
  push Not at all
  have every : List.range t.size ⊆ order := by
    intro n mem
    obtain ⟨k, at_n⟩ := all n (List.mem_range.mp mem)
    exact holds.taken n (List.mem_range.mp mem) k at_n
  have := (List.subperm_of_subset List.nodup_range every).length_le
  rw [List.length_range, holds.length_eq, ← holds.count] at this
  omega

theorem count_le (holds : t.Holds order l) : t.count ≤ t.size := by
  have every : order ⊆ List.range t.size := fun n mem => List.mem_range.mpr (holds.inside n mem)
  have := (List.subperm_of_subset holds.linked.nodup every).length_le
  rwa [List.length_range, holds.length_eq, ← holds.count] at this

/-- An entry for a new key, in a table that has room for it. -/
theorem place (holds : t.Holds order l) (fresh : k ∉ l.map Prod.fst) (room : t.count < t.size)
    (few : l.length ≤ 2 ^ 29) (enough : t.size ≤ fuel) (v : ν) :
    ∃ t' n, place fuel t k v = some t' ∧ t'.Holds (order ++ [n]) (l ++ [(k, v)]) ∧
      t'.size = t.size ∧ t'.hashFn = t.hashFn := by
  -- There is a free place, so probing finds one; it is not linked.
  obtain ⟨m, inside, free⟩ := holds.exists_free room
  obtain ⟨j, less, found, vacant, before⟩ := exists_vacancy inside free enough k
  have absent : (t.hashFn k + j) % t.size ∉ order := by
    intro mem
    obtain ⟨⟨k', v'⟩, -, entry⟩ := holds.exists_entry mem
    exact vacant k' (entry_eq_some_iff.mp entry).1
  obtain ⟨links, pushed, linked⟩ := holds.linked.pushBack absent
  refine ⟨_, (t.hashFn k + j) % t.size, place_eq found pushed (by rw [holds.count]; omega), ?_,
    rfl, rfl⟩
  have same (n : ℕ) (mem : n ∈ order) : n ≠ (t.hashFn k + j) % t.size :=
    ne_of_mem_of_not_mem mem absent
  exact
    { pos := holds.pos
      linked
      inside := by
        intro n mem
        obtain mem | rfl := List.mem_append.mp mem |>.imp_right List.mem_singleton.mp
        · exact holds.inside n mem
        · exact Nat.mod_lt _ holds.pos
      entries := by
        rw [List.map_append, List.map_append, ← holds.entries]
        congr 1
        · refine List.map_congr_left fun n mem => ?_
          simp [entry, same n mem]
        · simp [entry]
      taken := by
        intro n inside k' at_n
        dsimp only at at_n
        rw [Function.update_apply] at at_n
        split_ifs at at_n with here
        · simp [here]
        · exact List.mem_append_left _ (holds.taken n inside k' at_n)
      reached := holds.reached.insert less before
      distinct := by
        rw [List.map_append, List.nodup_append']
        exact ⟨holds.distinct, List.nodup_singleton k, by simpa using fresh⟩
      count := by simp [holds.count] }

theorem insert_of_not_loaded [Inhabited ν] (holds : t.Holds order l) (light : ¬ t.Loaded)
    (fresh : k ∉ l.map Prod.fst) (few : l.length ≤ 2 ^ 29) (enough : t.size ≤ fuel) (v : ν) :
    ∃ t' n, lhTableInsert (fuel + 1) t k v = some t' ∧ t'.Holds (order ++ [n]) (l ++ [(k, v)]) ∧
      t'.size = t.size ∧ t'.hashFn = t.hashFn := by
  have room : t.count < t.size := by
    rw [Loaded] at light
    omega
  rw [lhTableInsert, if_neg light]
  exact holds.place fresh room few enough v

/-- Entries that go from one table to another, which is large enough for them. -/
theorem copy [Inhabited ν] {s : Table κ ν} {moved : List ℕ} {rest : List (κ × ν)}
    (holds : s.Holds order l) (listed : moved.map t.entry = rest.map some)
    (distinct : ((l ++ rest).map Prod.fst).Nodup)
    (room : 100 * (l ++ rest).length ≤ 66 * s.size) (few : (l ++ rest).length ≤ 2 ^ 29)
    (enough : s.size ≤ fuel) :
    ∃ s' order', moved.foldlM
        (fun s n => (t.entry n).bind fun e => lhTableInsert (fuel + 1) s e.1 e.2) s = some s' ∧
      s'.Holds order' (l ++ rest) ∧ s'.size = s.size ∧ s'.hashFn = s.hashFn := by
  induction moved generalizing s order l rest with
  | nil =>
    obtain rfl : rest = [] := by simpa using listed.symm
    exact ⟨s, order, rfl, by simpa using holds, rfl, rfl⟩
  | cons n moved ih =>
    cases rest with
    | nil => simp at listed
    | cons e rest =>
      rw [List.map_cons, List.map_cons, List.cons.injEq] at listed
      obtain ⟨here, listed⟩ := listed
      -- The other table never becomes loaded, so that no insertion resizes it.
      have light : ¬ s.Loaded := by
        rw [Loaded, holds.count]
        simp only [List.length_append, List.length_cons] at room
        omega
      have fresh : e.1 ∉ l.map Prod.fst := by
        rw [List.map_append, List.map_cons, List.nodup_append',
          List.disjoint_cons_right] at distinct
        exact distinct.2.2.1
      have few' : l.length ≤ 2 ^ 29 := by
        rw [List.length_append] at few
        omega
      obtain ⟨s', n', inserted, holds', size, hashFn⟩ :=
        holds.insert_of_not_loaded light fresh few' enough e.2
      rw [← size] at room enough
      rw [show l ++ e :: rest = l ++ [(e.1, e.2)] ++ rest by simp] at distinct room few ⊢
      obtain ⟨s'', order'', folded, holds'', size', hashFn'⟩ :=
        ih holds' listed distinct room few enough
      refine ⟨s'', order'', ?_, holds'', size'.trans size, hashFn'.trans hashFn⟩
      rw [List.foldlM_cons, here, Option.bind_some, inserted]
      exact folded

/-- A resize keeps the entries and their order. -/
theorem resize [Inhabited ν] {newSize : ℕ} (holds : t.Holds order l) (pos : 0 < newSize)
    (room : 100 * t.count ≤ 66 * newSize) (few : l.length ≤ 2 ^ 29) (enough : newSize ≤ fuel)
    (longer : t.count ≤ fuel) :
    ∃ t' order', lhTableResize (fuel + 1) t newSize = some t' ∧ t'.Holds order' l ∧
      t'.size = newSize ∧ t'.hashFn = t.hashFn := by
  have new : (lhTableNew newSize t.hashFn : Table κ ν).Holds [] [] := holds_new t.hashFn pos
  have short : order.length < fuel + 1 := by
    rw [holds.length_eq, ← holds.count]
    omega
  obtain ⟨s, order', folded, holds', size, hashFn⟩ :=
    new.copy holds.entries holds.distinct (by rwa [List.nil_append, ← holds.count]) few enough
  have size : s.size = newSize := size
  have hashFn : s.hashFn = t.hashFn := hashFn
  rw [List.nil_append] at holds'
  refine ⟨{ t with keys := s.keys, values := s.values, size := newSize, links := s.links }, order',
    ?_, ?_, rfl, rfl⟩
  · rw [lhTableResize, resizeBy, holds.linked.head, holds.linked.chain.walk short, folded]
    rfl
  · exact
      { pos
        linked := holds'.linked
        inside := size ▸ holds'.inside
        entries := holds'.entries
        taken := size ▸ holds'.taken
        reached := hashFn ▸ size ▸ holds'.reached
        distinct := holds.distinct
        count := holds.count }

/-- `lh_table_insert` always ends, and appends the entry. A table that has to grow for so few
entries is small enough to be doubled. -/
theorem insert [Inhabited ν] (holds : t.Holds order l) (fresh : k ∉ l.map Prod.fst)
    (few : l.length ≤ 2 ^ 29) (enough : 2 * t.size + 2 ≤ fuel) (v : ν) :
    ∃ t' order', lhTableInsert fuel t k v = some t' ∧ t'.Holds order' (l ++ [(k, v)]) ∧
      t'.size ≤ 2 * t.size ∧ t'.hashFn = t.hashFn := by
  obtain ⟨fuel, rfl⟩ : ∃ f, fuel = f + 2 := ⟨fuel - 2, by omega⟩
  have pos := holds.pos
  by_cases loaded : t.Loaded
  · have full := holds.count_le
    have small : t.size * 2 < 2 ^ 31 := by
      rw [Loaded, holds.count] at loaded
      omega
    obtain ⟨s, order', resized, holds', size, hashFn⟩ :=
      @resize _ _ t order l fuel _ (t.size * 2) holds (by omega) (by omega) few (by omega)
        (by omega)
    have room : s.count < s.size := by
      rw [holds'.count, ← holds.count, size]
      omega
    obtain ⟨t', n, placed, holds'', size', hashFn'⟩ :=
      @place _ _ s order' l (fuel + 1) k holds' fresh room few (by omega) v
    refine ⟨t', order' ++ [n], ?_, holds'', by omega, hashFn'.trans hashFn⟩
    rw [lhTableResize] at resized
    rw [lhTableInsert, if_pos loaded, asInt_of_lt small, Option.bind_some, resized]
    exact placed
  · obtain ⟨t', n, inserted, holds', size, hashFn⟩ :=
      @insert_of_not_loaded _ _ t order l (fuel + 1) k _ holds loaded fresh few (by omega) v
    exact ⟨t', order ++ [n], inserted, holds', by omega, hashFn⟩

section Lookup

variable [DecidableEq κ] {l₁ l₂ : List (κ × ν)}

theorem lookup_of_notMem (holds : t.Holds order l) (absent : k ∉ l.map Prod.fst) :
    lhTableLookupEntry t k = none := by
  refine seek_eq_none holds.pos fun n inside at_n => absent ?_
  obtain ⟨⟨k', v'⟩, mem, entry⟩ := holds.exists_entry (holds.taken n inside k at_n)
  rw [entry_of_key at_n] at entry
  cases entry
  exact List.mem_map_of_mem mem

/-- Where an entry stands in the table. -/
theorem lookup (holds : t.Holds order (l₁ ++ (k, v) :: l₂)) :
    ∃ o₁ n o₂, order = o₁ ++ n :: o₂ ∧ o₁.map t.entry = l₁.map some ∧
      o₂.map t.entry = l₂.map some ∧ t.keys n = .key k ∧ t.values n = v ∧
      lhTableLookupEntry t k = some n := by
  have entries := holds.entries
  rw [List.map_append, List.map_cons, List.map_eq_append_iff] at entries
  obtain ⟨o₁, rest, rfl, first, second⟩ := entries
  rw [List.map_eq_cons_iff] at second
  obtain ⟨n, o₂, rfl, here, third⟩ := second
  obtain ⟨key, value⟩ := entry_eq_some_iff.mp here
  have inside : n < t.size := holds.inside n (by simp)
  refine ⟨o₁, n, o₂, rfl, first, third, key, value, ?_⟩
  exact holds.reached.seek_eq_some inside key fun m less at_m => holds.unique inside less key at_m

/-- The value of an entry is replaced in its place. -/
theorem replace (holds : t.Holds order (l₁ ++ (k, v) :: l₂)) (v' : ν) :
    ∃ n, lhTableLookupEntry t k = some n ∧
      { t with values := Function.update t.values n v' }.Holds order (l₁ ++ (k, v') :: l₂) := by
  obtain ⟨o₁, n, o₂, rfl, first, third, key, -, found⟩ := holds.lookup
  obtain ⟨-, -, -, -, absent, absent', -⟩ := holds.linked.split
  have entry_eq (m : ℕ) (other : m ≠ n) :
      { t with values := Function.update t.values n v' }.entry m = t.entry m := by
    simp [entry, other]
  refine ⟨n, found, { holds with entries := ?_, distinct := ?_, count := ?_ }⟩
  · rw [List.map_append, List.map_cons, List.map_append, List.map_cons, ← first, ← third]
    congr 1
    · exact List.map_congr_left fun m mem => entry_eq m (ne_of_mem_of_not_mem mem absent)
    · congr 1
      · simp [entry, key]
      · exact List.map_congr_left fun m mem => entry_eq m (ne_of_mem_of_not_mem mem absent')
  · simpa using holds.distinct
  · simpa using holds.count

/-- Deleting an entry keeps the order of the others. -/
theorem delete [Inhabited ν] (holds : t.Holds order (l₁ ++ (k, v) :: l₂)) :
    ∃ t' order', lhTableDelete t k = some (t', 0) ∧ t'.Holds order' (l₁ ++ l₂) ∧
      t'.size = t.size ∧ t'.hashFn = t.hashFn := by
  obtain ⟨o₁, n, o₂, rfl, first, third, key, -, found⟩ := holds.lookup
  obtain ⟨-, -, -, -, absent, absent', -⟩ := holds.linked.split
  obtain ⟨links, removed, linked⟩ := holds.linked.remove
  have other (m : ℕ) (mem : m ∈ o₁ ++ o₂) : m ≠ n := by
    rintro rfl
    exact (List.mem_append.mp mem).elim absent absent'
  refine ⟨{ t with
      count := t.count - 1
      values := Function.update t.values n default
      keys := Function.update t.keys n .freed
      links }, o₁ ++ o₂, ?_, ?_, rfl, rfl⟩
  · rw [lhTableDelete, found]
    dsimp only
    rw [lhTableDeleteEntry, key, removed]
    rfl
  · exact
      { pos := holds.pos
        linked
        inside := fun m mem => holds.inside m (by simp at mem ⊢; tauto)
        entries := by
          have rest : (l₁ ++ l₂).map some = (o₁ ++ o₂).map t.entry := by
            rw [List.map_append, List.map_append, first, third]
          rw [rest]
          refine List.map_congr_left fun m mem => ?_
          simp [entry, other m mem]
        taken := by
          intro m inside k' at_m
          dsimp only at at_m
          rw [Function.update_apply] at at_m
          split_ifs at at_m with here
          have mem := holds.taken m inside k' at_m
          simp only [List.mem_append, List.mem_cons, here, false_or] at mem ⊢
          exact mem
        -- The place is freed and not empty: probing still goes on behind it.
        reached := holds.reached.free n
        distinct := holds.distinct.sublist
          (((List.sublist_cons_self (k, v) l₂).append_left l₁).map Prod.fst)
        count := by
          have := holds.count
          simp only [List.length_append, List.length_cons] at this ⊢
          omega }

end Lookup

/-- The links lead through the entries in their order. -/
theorem foreach (holds : t.Holds order l) (enough : l.length < fuel) :
    lhForeach fuel t = some l := by
  have collect (order : List ℕ) (l seen : List (κ × ν))
      (entries : order.map t.entry = l.map some) :
      order.foldlM (fun seen n => (t.entry n).map fun e => seen ++ [e]) seen =
        some (seen ++ l) := by
    induction order generalizing l seen with
    | nil =>
      obtain rfl : l = [] := by simpa using entries.symm
      simp
    | cons n order ih =>
      cases l with
      | nil => simp at entries
      | cons e l =>
        rw [List.map_cons, List.map_cons, List.cons.injEq] at entries
        rw [List.foldlM_cons, entries.1]
        simpa using ih l (seen ++ [e]) entries.2
  rw [lhForeach, holds.linked.head, holds.linked.chain.walk (by rwa [holds.length_eq]),
    collect order l [] holds.entries, List.nil_append]

end Holds

end Table

/-! ### Members

An object is meant to be the list of its members: each key once, in the order in which the keys
came. -/

/-- The members of an object. -/
abbrev Members (κ ν : Type) := List (κ × ν)

namespace Members

variable [DecidableEq κ]

/-- A new value for a key, in its place if the key is there. -/
def add (l : Members κ ν) (key : κ) (val : ν) : Members κ ν :=
  if key ∈ l.map Prod.fst then l.map fun e => if e.1 = key then (key, val) else e
  else l ++ [(key, val)]

/-- The members without a key. -/
def del (l : Members κ ν) (key : κ) : Members κ ν := l.filter (·.1 ≠ key)

/-- The value of a key. -/
def get (l : Members κ ν) (key : κ) : Option ν :=
  (l.find? (·.1 = key)).map Prod.snd

variable {l l₁ l₂ : Members κ ν} {key : κ} {val val' : ν}

omit [DecidableEq κ] in
/-- The member with a key, and those before and behind it. -/
theorem exists_split (distinct : (l.map Prod.fst).Nodup) (mem : key ∈ l.map Prod.fst) :
    ∃ l₁ val l₂, l = l₁ ++ (key, val) :: l₂ ∧ key ∉ l₁.map Prod.fst ∧ key ∉ l₂.map Prod.fst := by
  obtain ⟨⟨_, val⟩, listed, rfl⟩ := List.mem_map.mp mem
  obtain ⟨l₁, l₂, rfl⟩ := List.append_of_mem listed
  rw [List.map_append, List.map_cons, List.nodup_append', List.nodup_cons,
    List.disjoint_cons_right] at distinct
  exact ⟨l₁, val, l₂, rfl, distinct.2.2.1, distinct.2.1.1⟩

theorem add_of_notMem (absent : key ∉ l.map Prod.fst) : l.add key val = l ++ [(key, val)] :=
  if_neg absent

theorem add_split (before : key ∉ l₁.map Prod.fst) (behind : key ∉ l₂.map Prod.fst) :
    (l₁ ++ (key, val) :: l₂).add key val' = l₁ ++ (key, val') :: l₂ := by
  have same (l : Members κ ν) (absent : key ∉ l.map Prod.fst) :
      l.map (fun e => if e.1 = key then (key, val') else e) = l := by
    refine (List.map_congr_left fun e mem => if_neg fun here => absent ?_).trans (List.map_id l)
    exact here ▸ List.mem_map_of_mem mem
  rw [add, if_pos (by simp), List.map_append, List.map_cons, same l₁ before, same l₂ behind,
    if_pos rfl]

theorem del_of_notMem (absent : key ∉ l.map Prod.fst) : l.del key = l := by
  refine List.filter_eq_self.mpr fun e mem => decide_eq_true ?_
  rintro rfl
  exact absent (List.mem_map_of_mem mem)

theorem del_split (before : key ∉ l₁.map Prod.fst) (behind : key ∉ l₂.map Prod.fst) :
    (l₁ ++ (key, val) :: l₂).del key = l₁ ++ l₂ := by
  have kept₁ := del_of_notMem before
  have kept₂ := del_of_notMem behind
  rw [del] at kept₁ kept₂ ⊢
  rw [List.filter_append, List.filter_cons_of_neg (by simp), kept₁, kept₂]

theorem get_of_notMem (absent : key ∉ l.map Prod.fst) : l.get key = none := by
  rw [get, Option.map_eq_none_iff, List.find?_eq_none]
  intro e mem here
  exact absent (of_decide_eq_true here ▸ List.mem_map_of_mem mem)

theorem get_split (before : key ∉ l₁.map Prod.fst) :
    (l₁ ++ (key, val) :: l₂).get key = some val := by
  have passed : l₁.find? (·.1 = key) = none := by
    simpa [get] using get_of_notMem before
  rw [get, List.find?_append, passed]
  simp

end Members

/-! ### JSON objects -/

/-- `LH_PRIME`. -/
def lhPrime : ℤ := 0x9e370001

/-- `lh_char_hash` of a text. A `char` is signed. -/
def lhCharHash (data : List UInt8) : ℕ :=
  data.foldl (fun h c => toUInt32 (h * 129 + c.toInt8.toInt + lhPrime)) 0

/-- `lh_kchar_table_new`: keys are texts. -/
def lhKcharTableNew [Inhabited ν] (size : ℕ) : Table (List UInt8) ν := lhTableNew size lhCharHash

/-- `JSON_OBJECT_DEF_HASH_ENTRIES`. -/
def jsonObjectDefHashEntries : ℕ := 16

/-- The members of the object that `json_object_new_object` makes. -/
def jsonObjectNewObject [Inhabited ν] : Table (List UInt8) ν :=
  lhKcharTableNew jsonObjectDefHashEntries

section Objects

variable [DecidableEq κ] [Inhabited ν]

/-- `json_object_object_add`. -/
def jsonObjectObjectAdd (fuel : ℕ) (t : Table κ ν) (key : κ) (val : ν) :
    Option (Table κ ν) :=
  match lhTableLookupEntry t key with
  | none => lhTableInsert fuel t key val
  | some e => some { t with values := Function.update t.values e val }

/-- `json_object_object_get_ex`, of an object: the result and `*value`. -/
def jsonObjectObjectGetEx (t : Table κ ν) (key : κ) : Bool × ν := lhTableLookupEx t key

/-- `json_object_object_del`. -/
def jsonObjectObjectDel (t : Table κ ν) (key : κ) : Option (Table κ ν) :=
  (lhTableDelete t key).map Prod.fst

/-- `json_object_object_length`. -/
def jsonObjectObjectLength (t : Table κ ν) : ℕ := lhTableLength t

/-- The calls on an object. -/
inductive Call (κ ν : Type)
  | add (key : κ) (val : ν)
  | del (key : κ)
  | getEx (key : κ)
  | length
  | foreach

/-- What a call answers. -/
inductive Answer (κ ν : Type)
  | done
  | value (found : Bool) (val : ν)
  | length (n : ℕ)
  | members (l : List (κ × ν))
  deriving DecidableEq

/-- One call. -/
def Table.call (fuel : ℕ) (t : Table κ ν) : Call κ ν → Option (Table κ ν × Answer κ ν)
  | .add key val => (jsonObjectObjectAdd fuel t key val).map (·, .done)
  | .del key => (jsonObjectObjectDel t key).map (·, .done)
  | .getEx key =>
    let (found, val) := jsonObjectObjectGetEx t key
    some (t, .value found val)
  | .length => some (t, .length (jsonObjectObjectLength t))
  | .foreach => (lhForeach fuel t).map fun l => (t, .members l)

/-- A sequence of calls and their answers. -/
def Table.run (fuel : ℕ) : Table κ ν → List (Call κ ν) → Option (Table κ ν × List (Answer κ ν))
  | t, [] => some (t, [])
  | t, c :: calls => do
    let (t, answer) ← t.call fuel c
    let (t, answers) ← t.run fuel calls
    some (t, answer :: answers)

/-- One call on the members. -/
def Members.call (l : Members κ ν) : Call κ ν → Members κ ν × Answer κ ν
  | .add key val => (l.add key val, .done)
  | .del key => (l.del key, .done)
  | .getEx key => (l, .value (l.get key).isSome ((l.get key).getD default))
  | .length => (l, .length l.length)
  | .foreach => (l, .members l)

/-- A sequence of calls on the members and their answers. -/
def Members.run : Members κ ν → List (Call κ ν) → Members κ ν × List (Answer κ ν)
  | l, [] => (l, [])
  | l, c :: calls =>
    let (l, answer) := l.call c
    let (l, answers) := Members.run l calls
    (l, answer :: answers)

/-- A call adds at most one member. -/
theorem Members.length_call_le (l : Members κ ν) (c : Call κ ν) :
    (l.call c).1.length ≤ l.length + 1 := by
  cases c with
  | add key val =>
    rw [Members.call, Members.add]
    split_ifs <;> simp
  | del key => exact (List.length_filter_le _ l).trans (Nat.le_succ _)
  | getEx key | length | foreach => exact Nat.le_succ _

/-- One call on a table answers as one on the list of members. -/
theorem Table.Holds.call {t : Table κ ν} {order : List ℕ} {l : Members κ ν} {fuel : ℕ}
    (holds : t.Holds order l) (few : l.length ≤ 2 ^ 29) (enough : 2 * t.size + 2 ≤ fuel)
    (c : Call κ ν) :
    ∃ t' order', t.call fuel c = some (t', (l.call c).2) ∧ t'.Holds order' (l.call c).1 ∧
      t'.size ≤ 2 * t.size := by
  have distinct := holds.distinct
  have room : l.length < fuel := by
    have := holds.count_le
    rw [holds.count] at this
    omega
  cases c with
  | add key val =>
    by_cases mem : key ∈ l.map Prod.fst
    · obtain ⟨l₁, old, l₂, rfl, before, behind⟩ := Members.exists_split distinct mem
      obtain ⟨n, found, holds'⟩ := holds.replace val
      rw [Members.call, Members.add_split before behind]
      refine ⟨_, order, ?_, holds', Nat.le_mul_of_pos_left _ Nat.two_pos⟩
      rw [Table.call, jsonObjectObjectAdd, found]
      rfl
    · obtain ⟨t', order', inserted, holds', size, -⟩ := holds.insert mem few enough val
      rw [Members.call, Members.add_of_notMem mem]
      refine ⟨t', order', ?_, holds', size⟩
      rw [Table.call, jsonObjectObjectAdd, holds.lookup_of_notMem mem]
      dsimp only
      rw [inserted]
      rfl
  | del key =>
    by_cases mem : key ∈ l.map Prod.fst
    · obtain ⟨l₁, old, l₂, rfl, before, behind⟩ := Members.exists_split distinct mem
      obtain ⟨t', order', deleted, holds', size, -⟩ := holds.delete
      rw [Members.call, Members.del_split before behind]
      refine ⟨t', order', ?_, holds', by omega⟩
      rw [Table.call, jsonObjectObjectDel, deleted]
      rfl
    · rw [Members.call, Members.del_of_notMem mem]
      refine ⟨t, order, ?_, holds, by omega⟩
      rw [Table.call, jsonObjectObjectDel, lhTableDelete, holds.lookup_of_notMem mem]
      rfl
  | getEx key =>
    refine ⟨t, order, ?_, holds, by omega⟩
    by_cases mem : key ∈ l.map Prod.fst
    · obtain ⟨l₁, val, l₂, rfl, before, -⟩ := Members.exists_split distinct mem
      obtain ⟨-, n, -, -, -, -, -, value, found⟩ := holds.lookup
      rw [Table.call, Members.call, Members.get_split before, jsonObjectObjectGetEx,
        lhTableLookupEx, found]
      simp [value]
    · rw [Table.call, Members.call, Members.get_of_notMem mem, jsonObjectObjectGetEx,
        lhTableLookupEx, holds.lookup_of_notMem mem]
      rfl
  | length =>
    refine ⟨t, order, ?_, holds, by omega⟩
    rw [Table.call, Members.call, jsonObjectObjectLength, lhTableLength, holds.count]
  | foreach =>
    refine ⟨t, order, ?_, holds, by omega⟩
    rw [Table.call, Members.call, holds.foreach room]
    rfl

theorem Table.Holds.run {t : Table κ ν} {order : List ℕ} {l : Members κ ν} {fuel : ℕ}
    (holds : t.Holds order l) (calls : List (Call κ ν)) (few : l.length + calls.length ≤ 2 ^ 29)
    (enough : 2 ^ (calls.length + 1) * t.size + 2 ≤ fuel) :
    ∃ t' order', t.run fuel calls = some (t', (l.run calls).2) ∧
      t'.Holds order' (l.run calls).1 := by
  induction calls generalizing t order l with
  | nil => exact ⟨t, order, rfl, holds⟩
  | cons c calls ih =>
    rw [List.length_cons] at few enough
    rw [Nat.pow_succ, Nat.mul_assoc] at enough
    have longer := l.length_call_le c
    have first : 2 * t.size ≤ 2 ^ (calls.length + 1) * (2 * t.size) :=
      Nat.le_mul_of_pos_left _ (Nat.two_pow_pos _)
    obtain ⟨t₁, order₁, called, holds₁, size⟩ :=
      holds.call (by omega) (by omega : 2 * t.size + 2 ≤ fuel) c
    have rest : 2 ^ (calls.length + 1) * t₁.size ≤ 2 ^ (calls.length + 1) * (2 * t.size) :=
      Nat.mul_le_mul_left _ size
    obtain ⟨t₂, order₂, ran, holds₂⟩ := ih holds₁ (by omega) (by omega)
    refine ⟨t₂, order₂, ?_, holds₂⟩
    rw [Table.run, called]
    simp [ran, Members.run]

end Objects

/-- With memory, an object behaves as the list of its members along every sequence of at most
`2 ^ 29` calls. -/
theorem object_refines [Inhabited ν] (calls : List (Call (List UInt8) ν))
    (few : calls.length ≤ 2 ^ 29) :
    ∃ enough, ∀ fuel ≥ enough, ∃ t order,
      (jsonObjectNewObject : Table (List UInt8) ν).run fuel calls =
        some (t, (Members.run [] calls).2) ∧
      t.Holds order (Members.run [] calls).1 := by
  have new : (jsonObjectNewObject : Table (List UInt8) ν).Holds [] [] :=
    Table.Holds.holds_new lhCharHash (by decide)
  exact ⟨_, fun fuel more => new.run calls (by rwa [List.length_nil, Nat.zero_add]) more⟩

/-- Two members, one of them with a second value and the other deleted. -/
theorem object_refines_three_adds :
    ∃ enough, ∀ fuel ≥ enough, ∃ t order,
      (jsonObjectNewObject : Table (List UInt8) ℕ).run fuel
          [.add [0x61] 1, .add [0x62] 2, .add [0x61] 3, .del [0x62], .foreach] =
        some (t, [.done, .done, .done, .done, .members [([0x61], 3)]]) ∧
      t.Holds order [([0x61], 3)] :=
  object_refines [.add [0x61] 1, .add [0x62] 2, .add [0x61] 3, .del [0x62], .foreach] (by decide)

end LinuxProgram.JsonC
