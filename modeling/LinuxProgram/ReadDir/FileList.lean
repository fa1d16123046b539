import LinuxProgram.Base.Loops
import LinuxProgram.Base.Text
import Mathlib.Data.List.Perm.Basic

/-!
# Listing a directory tree

`readFileList` goes through a directory stream, prints the paths of regular files and symbolic
links and calls itself on every subdirectory, whose path it puts together in a buffer of its own.
The entries `.` and `..` are skipped by name.

A directory tree is given by its names and types alone. How `readdir` presents it is a file
system that `Represents` the tree: each of its directories can be opened and yields its entries,
with `.` and `..` among them, in any order. What the file system says at other paths, such as
those of symbolic links, is left open.

## Main definitions

* `readFileList` — the code
* `DirTree`, `Entries.located` — directory trees and the paths in them
* `Represents` — how a file system presents a tree
* `Walks` — what a listing should do

## Main result

* `readFileList_walks` — `readFileList` lists every tree so
-/

namespace LinuxProgram.ReadDir

open Base

/-! ### The code -/

/-- `struct dirent`: the name, up to its terminator, and the type. -/
structure Dirent where
  dName : List UInt8
  dType : UInt8
  deriving DecidableEq

/-- What the program does that can be seen from outside. -/
inductive Event
  | opendir (path : List UInt8)
  | printf (line : List UInt8)
  | closedir (path : List UInt8)
  deriving DecidableEq

/-- How the program ends other than by returning: `exit(1)` if a directory cannot be opened, a
path that does not fit its buffer, or more nested calls than allowed for. -/
inductive Halt
  | exit
  | overflow
  | nested
  deriving DecidableEq

/-- What `opendir` and `readdir` find at a path. -/
abbrev FileSystem := List UInt8 → Option (List Dirent)

/-- `"."` -/
def dot : List UInt8 := ascii "."

/-- `".."` -/
def dotdot : List UInt8 := ascii ".."

/-- `"d_name:%s/%s\n"` -/
def dNameLine (basePath dName : List UInt8) : List UInt8 :=
  ascii "d_name:" ++ basePath ++ ascii "/" ++ dName ++ ascii "\n"

/-- `sizeof(base)` -/
def baseSize : ℕ := 1000

/-- `memset`, `strcpy` and two `strcat`s. A text that does not fit makes the buffer longer. -/
def makeBase (basePath dName : List UInt8) : List UInt8 :=
  let base := List.replicate baseSize 0
  let base := strcpy base basePath
  let base := strcat base (ascii "/")
  strcat base dName

/-- The body of the loop over the directory stream. -/
def visit (readFileList : List UInt8 → List Event → Except (Halt × List Event) (ℤ × List Event))
    (basePath : List UInt8) (trace : List Event) (ptr : Dirent) :
    Except (Halt × List Event) (List Event) :=
  -- The directory itself or the one above it.
  if ptr.dName = dot ∨ ptr.dName = dotdot then
    .ok trace
  -- A regular file.
  else if ptr.dType = 8 then
    .ok (trace ++ [.printf (dNameLine basePath ptr.dName)])
  -- A symbolic link.
  else if ptr.dType = 10 then
    .ok (trace ++ [.printf (dNameLine basePath ptr.dName)])
  -- A directory.
  else if ptr.dType = 4 then
    let base := makeBase basePath ptr.dName
    if baseSize < base.length then .error (.overflow, trace)
    else (readFileList (text base) trace).map Prod.snd
  else
    .ok trace

/-- `readFileList`, with at most `depth` nested calls. -/
def readFileList (fs : FileSystem) :
    (depth : ℕ) → (basePath : List UInt8) → List Event →
      Except (Halt × List Event) (ℤ × List Event)
  | 0, _, trace => .error (.nested, trace)
  | depth + 1, basePath, trace =>
    match fs basePath with
    | none => .error (.exit, trace)
    | some listing => do
      let trace ← runEvents (visit (readFileList fs depth) basePath)
        (trace ++ [.opendir basePath]) listing
      return (1, trace ++ [.closedir basePath])

/-! ### Directory trees -/

/-- A file name. -/
@[ext] structure Name where
  chars : List UInt8
  text : 0 ∉ chars
  single : 47 ∉ chars
  not_dot : chars ≠ dot
  not_dotdot : chars ≠ dotdot
  deriving DecidableEq

/-- The types of files. -/
inductive FileType
  | fifo
  | chr
  | dir
  | blk
  | reg
  | lnk
  | sock
  deriving DecidableEq

/-- `DT_FIFO` and so on. -/
def FileType.dType : FileType → UInt8
  | fifo => 1
  | chr => 2
  | dir => 4
  | blk => 6
  | reg => 8
  | lnk => 10
  | sock => 12

/-- A path below a directory. -/
def join (base : List UInt8) (name : Name) : List UInt8 := base ++ 47 :: name.chars

/-- The entries of a directory, with what is below them. -/
inductive Entries
  | nil
  | leaf (name : Name) (type : FileType) (other : type ≠ .dir) (rest : Entries)
  | dir (name : Name) (children rest : Entries)

namespace Entries

def names : Entries → List Name
  | nil => []
  | leaf name _ _ rest => name :: rest.names
  | dir name _ rest => name :: rest.names

/-- No directory has two entries of one name. -/
def Distinct : Entries → Prop
  | nil => True
  | leaf name _ _ rest => name ∉ rest.names ∧ rest.Distinct
  | dir name children rest => name ∉ rest.names ∧ children.Distinct ∧ rest.Distinct

/-- What `readdir` says of the entries. -/
def dirents : Entries → List Dirent
  | nil => []
  | leaf name type _ rest => ⟨name.chars, type.dType⟩ :: rest.dirents
  | dir name _ rest => ⟨name.chars, FileType.dir.dType⟩ :: rest.dirents

/-- How many directories lie within one another. -/
def height : Entries → ℕ
  | nil => 0
  | leaf _ _ _ rest => rest.height
  | dir _ children rest => max (children.height + 1) rest.height

/-- Everything below a directory: paths and types. -/
def located (base : List UInt8) : Entries → List (List UInt8 × FileType)
  | nil => []
  | leaf name type _ rest => (join base name, type) :: rest.located base
  | dir name children rest =>
    (join base name, .dir) :: (children.located (join base name) ++ rest.located base)

end Entries

/-- A directory tree. -/
structure DirTree where
  entries : Entries
  distinct : entries.Distinct

/-- A directory can be opened, and its entries come in some order, `.` and `..` among them. -/
def Listed (fs : FileSystem) (path : List UInt8) (e : Entries) : Prop :=
  ∃ listing, fs path = some listing ∧
    ∃ t₁ t₂, listing.Perm (⟨dot, t₁⟩ :: ⟨dotdot, t₂⟩ :: e.dirents)

/-- So do the directories below. -/
def ListedBelow (fs : FileSystem) (base : List UInt8) : Entries → Prop
  | .nil => True
  | .leaf _ _ _ rest => ListedBelow fs base rest
  | .dir name children rest =>
    Listed fs (join base name) children ∧ ListedBelow fs (join base name) children ∧
      ListedBelow fs base rest

/-- The file system has the tree at a path. -/
structure Represents (fs : FileSystem) (root : List UInt8) (tree : DirTree) : Prop where
  listed : Listed fs root tree.entries
  below : ListedBelow fs root tree.entries

/-! ### Traces -/

def Event.line? : Event → Option (List UInt8)
  | printf line => some line
  | _ => none

def Event.opened? : Event → Option (List UInt8)
  | opendir path => some path
  | _ => none

def Event.closed? : Event → Option (List UInt8)
  | closedir path => some path
  | _ => none

/-- Regular files and symbolic links are printed. -/
def FileType.printed (type : FileType) : Bool := type = .reg || type = .lnk

/-- The line for a path. -/
def pathLine (path : List UInt8) : List UInt8 := ascii "d_name:" ++ path ++ ascii "\n"

def lines (located : List (List UInt8 × FileType)) : List (List UInt8) :=
  (located.filter fun x => x.2.printed).map fun x => pathLine x.1

def dirs (located : List (List UInt8 × FileType)) : List (List UInt8) :=
  (located.filter fun x => x.2 = .dir).map Prod.fst

/-- A part of a trace that belongs to some located files, in some order. -/
structure Shows (events : List Event) (located : List (List UInt8 × FileType)) : Prop where
  printed : (events.filterMap Event.line?).Perm (lines located)
  opened : (events.filterMap Event.opened?).Perm (dirs located)
  closed : (events.filterMap Event.closed?).Perm (dirs located)

section Shows

variable {events events' : List Event} {located located' : List (List UInt8 × FileType)}

theorem Shows.nil : Shows [] [] := ⟨.refl _, .refl _, .refl _⟩

theorem Shows.append (first : Shows events located) (second : Shows events' located') :
    Shows (events ++ events') (located ++ located') := by
  refine ⟨?_, ?_, ?_⟩
  · simpa [lines] using first.printed.append second.printed
  · simpa [dirs] using first.opened.append second.opened
  · simpa [dirs] using first.closed.append second.closed

theorem Shows.perm (shows_some : Shows events located) (perm : located.Perm located') :
    Shows events located' where
  printed := shows_some.printed.trans ((perm.filter _).map _)
  opened := shows_some.opened.trans ((perm.filter _).map _)
  closed := shows_some.closed.trans ((perm.filter _).map _)

/-- The two ends of a directory. -/
theorem Shows.directory (below : Shows events located) (path : List UInt8) :
    Shows ([.opendir path] ++ events ++ [.closedir path]) ((path, .dir) :: located) := by
  refine ⟨?_, ?_, ?_⟩
  · simpa [lines, List.filterMap_cons, Event.line?, FileType.printed] using below.printed
  · simpa [dirs, List.filterMap_cons, Event.opened?] using below.opened
  · simpa [dirs, List.filterMap_cons, Event.closed?] using
      (List.perm_append_singleton path _).trans (below.closed.cons path)

/-- A part of the program that adds such a part to the trace. -/
def Adds (part : List Event → Except (Halt × List Event) (List Event))
    (located : List (List UInt8 × FileType)) : Prop :=
  ∃ events, Shows events located ∧ ∀ trace, part trace = .ok (trace ++ events)

/-- A loop adds what its rounds do. -/
theorem adds_loop {step : List Event → Dirent → Except (Halt × List Event) (List Event)}
    {listing : List Dirent} {groups : List (List (List UInt8 × FileType))}
    (rounds : List.Forall₂ (fun d located => Adds (fun trace => step trace d) located)
      listing groups) :
    Adds (fun trace => runEvents step trace listing) groups.flatten := by
  induction rounds with
  | nil => exact ⟨[], .nil, fun trace => by simp⟩
  | cons head _ ih =>
    obtain ⟨first, shows_first, ran⟩ := head
    obtain ⟨rest, shows_rest, runs⟩ := ih
    refine ⟨first ++ rest, shows_first.append shows_rest, fun trace => ?_⟩
    have next := runs (trace ++ first)
    simp only [runEvents_cons, ran, ← List.append_assoc]
    exact next

end Shows

/-! ### The rounds -/

section Rounds

variable {recurse : List UInt8 → List Event → Except (Halt × List Event) (ℤ × List Event)}
  {base : List UInt8} {name : Name}

theorem makeBase_spec {basePath dName : List UInt8} (plain₁ : 0 ∉ basePath) (plain₂ : 0 ∉ dName)
    (room : (basePath ++ 47 :: dName).length < baseSize) :
    (makeBase basePath dName).length = baseSize ∧
      text (makeBase basePath dName) = basePath ++ 47 :: dName := by
  have slash : text (ascii "/") = [47] := rfl
  simp only [List.length_append, List.length_cons] at room
  -- Each of the three texts fits, so the buffer keeps its size.
  constructor
  · have first : (strcpy (List.replicate baseSize 0) basePath).length = baseSize := by
      rw [strcpy, store_length] <;> rw [List.length_replicate]
      rw [text_of_plain plain₁]
      omega
    have second : (strcat (strcpy (List.replicate baseSize 0) basePath) (ascii "/")).length =
        baseSize := by
      rw [strcat, store_length] <;> rw [first]
      rw [text_strcpy, text_of_plain plain₁, slash, List.length_append, List.length_singleton]
      omega
    rw [makeBase, strcat, store_length] <;> rw [second]
    rw [text_strcat, text_strcpy, text_of_plain plain₁, text_of_plain plain₂, slash,
      List.length_append, List.length_append, List.length_singleton]
    omega
  · rw [makeBase, text_strcat, text_strcat, text_strcpy, text_of_plain plain₁,
      text_of_plain plain₂, slash, List.append_assoc, List.singleton_append]

theorem adds_dots {d : Dirent} (dots : d.dName = dot ∨ d.dName = dotdot) :
    Adds (fun trace => visit recurse base trace d) [] := by
  refine ⟨[], .nil, fun trace => ?_⟩
  simp only [visit, if_pos dots, List.append_nil]

/-- Other than a directory, an entry is printed or passed over. -/
theorem adds_leaf {type : FileType} (other : type ≠ .dir) :
    Adds (fun trace => visit recurse base trace ⟨name.chars, type.dType⟩)
      [(join base name, type)] := by
  have named : ¬ (name.chars = dot ∨ name.chars = dotdot) :=
    not_or.mpr ⟨name.not_dot, name.not_dotdot⟩
  have line : dNameLine base name.chars = pathLine (join base name) := by
    simp [dNameLine, pathLine, join, ascii]
  cases printed : type.printed with
  | true =>
    refine ⟨[.printf (pathLine (join base name))], ?_, fun trace => ?_⟩
    · constructor <;> simp [List.filterMap_cons, lines, dirs, printed, other, Event.line?,
        Event.opened?, Event.closed?]
    · have known : type = .reg ∨ type = .lnk := by simpa [FileType.printed] using printed
      rcases known with rfl | rfl <;> simp [visit, named, FileType.dType, line]
  | false =>
    refine ⟨[], ?_, fun trace => ?_⟩
    · constructor <;> simp [lines, dirs, printed, other]
    · cases type <;> simp [visit, named, FileType.dType] <;>
        first | exact absurd rfl other | exact absurd printed (by decide)

/-- A directory is entered by the path of the entry. -/
theorem adds_dir {located : List (List UInt8 × FileType)} (plain : 0 ∉ base)
    (room : (join base name).length < baseSize)
    (enters : Adds (fun trace => (recurse (join base name) trace).map Prod.snd) located) :
    Adds (fun trace => visit recurse base trace ⟨name.chars, FileType.dir.dType⟩) located := by
  have named : ¬ (name.chars = dot ∨ name.chars = dotdot) :=
    not_or.mpr ⟨name.not_dot, name.not_dotdot⟩
  obtain ⟨size, path⟩ := makeBase_spec plain name.text room
  obtain ⟨events, shown, ran⟩ := enters
  refine ⟨events, shown, fun trace => ?_⟩
  rw [← ran]
  simp [visit, named, FileType.dType, size, path, join]

end Rounds

/-! ### The recursion -/

section Recursion

variable {fs : FileSystem} {base : List UInt8} {e : Entries} {depth : ℕ}

/-- `readFileList` of a directory lists the directory. -/
def Lists (fs : FileSystem) (depth : ℕ) (base : List UInt8) (e : Entries) : Prop :=
  ∃ events, Shows events ((base, .dir) :: e.located base) ∧
    ∀ trace, readFileList fs depth base trace = .ok (1, trace ++ events)

/-- Each entry of a directory is visited, whatever the order. -/
def EachVisited (fs : FileSystem) (depth : ℕ) (base : List UInt8) (e : Entries) : Prop :=
  ∃ groups, List.Forall₂ (fun d located =>
      Adds (fun trace => visit (readFileList fs depth) base trace d) located) e.dirents groups ∧
    groups.flatten = e.located base

theorem lists_of_eachVisited (listed : Listed fs base e)
    (visited : EachVisited fs depth base e) : Lists fs (depth + 1) base e := by
  obtain ⟨listing, found, t₁, t₂, perm⟩ := listed
  obtain ⟨groups, rounds, flat⟩ := visited
  -- The rounds in the order of the listing.
  obtain ⟨ordered, rounds', perm'⟩ := List.perm_comp_forall₂ perm
    (.cons (adds_dots (.inl rfl)) (.cons (adds_dots (.inr rfl)) rounds))
  obtain ⟨events, shown, ran⟩ := adds_loop rounds'
  have located : ordered.flatten.Perm (e.located base) := by
    rw [← flat]
    exact perm'.flatten
  refine ⟨_, (shown.perm located).directory base, fun trace => ?_⟩
  rw [readFileList, found]
  simp only [ran, bind, Except.bind, pure, Except.pure, List.append_assoc]

theorem eachVisited (below : ListedBelow fs base e) (deep : e.height ≤ depth) (plain : 0 ∉ base)
    (room : ∀ path, (path, FileType.dir) ∈ e.located base → path.length < baseSize) :
    EachVisited fs depth base e := by
  induction e generalizing base depth with
  | nil => exact ⟨[], .nil, rfl⟩
  | leaf name type other rest ih =>
    obtain ⟨groups, rounds, flat⟩ := ih below deep plain fun path mem =>
      room path (List.mem_cons_of_mem _ mem)
    exact ⟨[(join base name, type)] :: groups, .cons (adds_leaf other) rounds, by
      simp [flat, Entries.located]⟩
  | dir name children rest ih_children ih_rest =>
    obtain ⟨listed, inner, outer⟩ := below
    have deeper : children.height + 1 ≤ depth ∧ rest.height ≤ depth := max_le_iff.mp deep
    obtain ⟨depth, rfl⟩ : ∃ k, depth = k + 1 := ⟨depth - 1, by omega⟩
    obtain ⟨groups, rounds, flat⟩ := ih_rest outer deeper.2 plain fun path mem =>
      room path (List.mem_cons_of_mem _ (List.mem_append_right _ mem))
    have plain' : 0 ∉ join base name := by simp [join, plain, name.text]
    -- The directory is one level deeper, so its own entries have a call less.
    obtain ⟨events, shown, ran⟩ := lists_of_eachVisited listed (ih_children inner
      (show children.height ≤ depth by omega) plain' fun path mem =>
        room path (List.mem_cons_of_mem _ (List.mem_append_left _ mem)))
    have enters : Adds (fun trace => (readFileList fs (depth + 1) (join base name) trace).map
        Prod.snd) ((join base name, .dir) :: children.located (join base name)) :=
      ⟨events, shown, fun trace => congrArg (Except.map Prod.snd) (ran trace)⟩
    exact ⟨_ :: groups, .cons (adds_dir plain (room _ List.mem_cons_self) enters) rounds, by
      simp [flat, Entries.located]⟩

end Recursion

/-! ### Paths -/

section Paths

variable {base path : List UInt8} {type : FileType} {e : Entries}

/-- What may follow a name in a path. -/
def Tail (tail : List UInt8) : Prop := tail = [] ∨ ∃ below, tail = 47 :: below

/-- A path starts with one name only. -/
theorem name_unique {name₁ name₂ : Name} {tail₁ tail₂ : List UInt8} (ends₁ : Tail tail₁)
    (ends₂ : Tail tail₂) (same : name₁.chars ++ tail₁ = name₂.chars ++ tail₂) : name₁ = name₂ := by
  ext1
  rcases ends₁ with rfl | ⟨below₁, rfl⟩ <;> rcases ends₂ with rfl | ⟨below₂, rfl⟩
  · simpa using same
  · rw [List.append_nil] at same
    exact absurd (same ▸ by simp) name₁.single
  · rw [List.append_nil] at same
    exact absurd (same ▸ by simp) name₂.single
  · exact (append_separator_inj name₁.single name₂.single same).1

/-- Everything below a directory lies under the name of one of its entries. -/
theorem located_under (mem : (path, type) ∈ e.located base) :
    ∃ name ∈ e.names, ∃ tail, Tail tail ∧ path = base ++ 47 :: (name.chars ++ tail) := by
  induction e generalizing base with
  | nil => cases mem
  | leaf name type' other rest ih =>
    rcases List.mem_cons.mp mem with here | later
    · obtain ⟨rfl, rfl⟩ := Prod.mk.inj here
      exact ⟨name, List.mem_cons_self, [], .inl rfl, by simp [join]⟩
    · obtain ⟨name', known, rest⟩ := ih later
      exact ⟨name', List.mem_cons_of_mem _ known, rest⟩
  | dir name children rest ih_children ih_rest =>
    rcases List.mem_cons.mp mem with here | below
    · obtain ⟨rfl, rfl⟩ := Prod.mk.inj here
      exact ⟨name, List.mem_cons_self, [], .inl rfl, by simp [join]⟩
    rcases List.mem_append.mp below with inner | later
    · obtain ⟨name', -, tail, -, rfl⟩ := ih_children inner
      exact ⟨name, List.mem_cons_self, 47 :: (name'.chars ++ tail), .inr ⟨_, rfl⟩, by
        simp [join]⟩
    · obtain ⟨name', known, rest⟩ := ih_rest later
      exact ⟨name', List.mem_cons_of_mem _ known, rest⟩

theorem base_not_located : base ∉ (e.located base).map Prod.fst := by
  rintro mem
  obtain ⟨⟨path, type⟩, located, same⟩ := List.mem_map.mp mem
  obtain ⟨name, -, tail, -, rfl⟩ := located_under located
  have length := congrArg List.length same
  simp at length

/-- A path under another name is not found below the others. -/
theorem not_located {name : Name} {tail : List UInt8} (ends : Tail tail) (fresh : name ∉ e.names) :
    base ++ 47 :: (name.chars ++ tail) ∉ (e.located base).map Prod.fst := by
  rintro mem
  obtain ⟨⟨path, type⟩, located, same⟩ := List.mem_map.mp mem
  obtain ⟨name', known, tail', ends', rfl⟩ := located_under located
  have names := List.cons.inj (List.append_cancel_left same)
  exact fresh (name_unique ends' ends names.2 ▸ known)

/-- In a directory tree every path is there once. -/
theorem located_nodup (distinct : e.Distinct) : ((e.located base).map Prod.fst).Nodup := by
  induction e generalizing base with
  | nil => exact List.nodup_nil
  | leaf name type other rest ih =>
    obtain ⟨fresh, distinct⟩ := distinct
    refine List.nodup_cons.mpr ⟨?_, ih distinct⟩
    simpa [join] using @not_located base rest name [] (.inl rfl) fresh
  | dir name children rest ih_children ih_rest =>
    obtain ⟨fresh, inner, outer⟩ := distinct
    rw [Entries.located, List.map_cons, List.map_append, List.nodup_cons, List.nodup_append,
      List.mem_append, not_or]
    refine ⟨⟨base_not_located, ?_⟩, ih_children inner, ih_rest outer, ?_⟩
    · simpa [join] using @not_located base rest name [] (.inl rfl) fresh
    · -- A path below the directory starts with its name, and the other paths do not.
      rintro path inside _ outside rfl
      obtain ⟨⟨path', type⟩, located, rfl⟩ := List.mem_map.mp inside
      obtain ⟨name', -, tail, -, rfl⟩ := located_under located
      refine @not_located base rest name (47 :: (name'.chars ++ tail)) (.inr ⟨_, rfl⟩) fresh ?_
      simpa [join] using outside

end Paths

/-! ### The listing -/

/-- The listing of a tree: the lines printed are those of its regular files and symbolic links,
each once; the directories opened are its directories, each once, and so are those closed; and
symbolic links are not entered. -/
structure Walks (root : List UInt8) (tree : DirTree) (trace : List Event) : Prop where
  prints : ∀ line, .printf line ∈ trace ↔ ∃ path type,
    (path, type) ∈ tree.entries.located root ∧ (type = .reg ∨ type = .lnk) ∧ line = pathLine path
  prints_once : (trace.filterMap Event.line?).Nodup
  opens : ∀ path, .opendir path ∈ trace ↔
    path = root ∨ (path, .dir) ∈ tree.entries.located root
  opens_once : (trace.filterMap Event.opened?).Nodup
  closes : ∀ path, .closedir path ∈ trace ↔
    path = root ∨ (path, .dir) ∈ tree.entries.located root
  closes_once : (trace.filterMap Event.closed?).Nodup
  links : ∀ path, (path, .lnk) ∈ tree.entries.located root → .opendir path ∉ trace

theorem pathLine_injective : Function.Injective pathLine := by
  intro path₁ path₂ same
  exact List.append_cancel_left (List.append_cancel_right same)

/-- An event is found by what it says. -/
theorem mem_iff_said {α : Type} {said : Event → Option α} {a : α} {event : Event}
    {trace : List Event} (known : ∀ other, said other = some a ↔ other = event) :
    event ∈ trace ↔ a ∈ trace.filterMap said := by
  rw [List.mem_filterMap]
  constructor
  · exact fun mem => ⟨event, mem, (known event).mpr rfl⟩
  · rintro ⟨other, mem, found⟩
    exact (known other).mp found ▸ mem

theorem Shows.walks {root : List UInt8} {tree : DirTree} {trace : List Event}
    (shown : Shows trace ((root, .dir) :: tree.entries.located root)) : Walks root tree trace := by
  -- Every path is there once, so nothing is said twice.
  have nodup : (((root, FileType.dir) :: tree.entries.located root).map Prod.fst).Nodup :=
    List.nodup_cons.mpr ⟨base_not_located, located_nodup tree.distinct⟩
  have filtered (f : List UInt8 × FileType → Bool) :
      ((((root, FileType.dir) :: tree.entries.located root).filter f).map Prod.fst).Nodup :=
    nodup.sublist (List.filter_sublist.map _)
  have in_dirs (path : List UInt8) : path ∈ dirs ((root, .dir) :: tree.entries.located root) ↔
      path = root ∨ (path, .dir) ∈ tree.entries.located root := by
    simp [dirs]
  have opens (path : List UInt8) : .opendir path ∈ trace ↔
      path = root ∨ (path, .dir) ∈ tree.entries.located root := by
    have said := @mem_iff_said _ Event.opened? path (.opendir path) trace
      fun other => by cases other <;> simp [Event.opened?]
    rw [said, shown.opened.mem_iff, in_dirs]
  refine ⟨?_, ?_, opens, shown.opened.nodup_iff.mpr (filtered _), ?_,
    shown.closed.nodup_iff.mpr (filtered _), ?_⟩
  · intro line
    have said := @mem_iff_said _ Event.line? line (.printf line) trace
      fun other => by cases other <;> simp [Event.line?]
    rw [said, shown.printed.mem_iff]
    simp only [lines, FileType.printed, List.mem_map, List.mem_filter, List.mem_cons,
      Bool.or_eq_true, decide_eq_true_eq]
    constructor
    · rintro ⟨⟨path, type⟩, ⟨here | below, printed⟩, rfl⟩
      · obtain ⟨-, rfl⟩ := Prod.mk.inj here
        rcases printed with impossible | impossible <;> cases impossible
      · exact ⟨path, type, below, printed, rfl⟩
    · rintro ⟨path, type, below, printed, rfl⟩
      exact ⟨(path, type), ⟨.inr below, printed⟩, rfl⟩
  · rw [shown.printed.nodup_iff, lines, ← Function.comp_def, ← List.map_map]
    exact (filtered _).map pathLine_injective
  · intro path
    have said := @mem_iff_said _ Event.closed? path (.closedir path) trace
      fun other => by cases other <;> simp [Event.closed?]
    rw [said, shown.closed.mem_iff, in_dirs]
  · -- A path has one type, so that of a link is not that of a directory.
    intro path link opened
    rcases (opens path).mp opened with rfl | dir
    · exact base_not_located (List.mem_map_of_mem (f := Prod.fst) link)
    · have same := List.inj_on_of_nodup_map (located_nodup tree.distinct) link dir rfl
      cases (Prod.mk.inj same).2

/-- On every directory tree whose directories have paths of at most 999 bytes, presented in any
order, `readFileList` returns and lists the tree. -/
theorem readFileList_walks {fs : FileSystem} {root : List UInt8} {tree : DirTree} {depth : ℕ}
    (plain : 0 ∉ root) (presented : Represents fs root tree)
    (room : ∀ path, path = root ∨ (path, .dir) ∈ tree.entries.located root → path.length ≤ 999)
    (deep : tree.entries.height < depth) :
    ∃ trace, readFileList fs depth root [] = .ok (1, trace) ∧ Walks root tree trace := by
  obtain ⟨depth, rfl⟩ : ∃ k, depth = k + 1 := ⟨depth - 1, by omega⟩
  have visited := eachVisited presented.below (Nat.le_of_lt_succ deep) plain fun path mem =>
    Nat.lt_succ_of_le (room path (.inr mem))
  obtain ⟨trace, shown, ran⟩ := lists_of_eachVisited presented.listed visited
  exact ⟨trace, ran [], shown.walks⟩

/-- The name `f`, `l` or `d`. -/
def letter (c : UInt8) (plain : 97 ≤ c) : Name where
  chars := [c]
  text := by
    rintro zero
    rw [← List.mem_singleton.mp zero] at plain
    exact absurd plain (by decide)
  single := by
    rintro slash
    rw [← List.mem_singleton.mp slash] at plain
    exact absurd plain (by decide)
  not_dot := by
    rintro same
    rw [(List.cons.inj same).1] at plain
    exact absurd plain (by decide)
  not_dotdot := fun same => absurd (congrArg List.length same) (show ¬ 1 = 2 by decide)

/-- A directory `d` with a symbolic link `l` in it, beside a file `f`. -/
def smallTree : DirTree where
  entries := .dir (letter 100 (by decide)) (.leaf (letter 108 (by decide)) .lnk (by decide) .nil)
    (.leaf (letter 102 (by decide)) .reg (by decide) .nil)
  distinct := ⟨by decide, ⟨by decide, trivial⟩, by decide, trivial⟩

/-- The tree at `/r`. The link leads back to the root. -/
def smallFs : FileSystem := fun path =>
  if path = ascii "/r" then
    some [⟨ascii "f", 8⟩, ⟨dotdot, 4⟩, ⟨ascii "d", 4⟩, ⟨dot, 4⟩]
  else if path = ascii "/r/d" then some [⟨dot, 4⟩, ⟨ascii "l", 10⟩, ⟨dotdot, 4⟩]
  else if path = ascii "/r/d/l" then
    some [⟨ascii "f", 8⟩, ⟨dotdot, 4⟩, ⟨ascii "d", 4⟩, ⟨dot, 4⟩]
  else none

theorem readFileList_walks_small : Represents smallFs (ascii "/r") smallTree ∧
    ∃ trace, readFileList smallFs 2 (ascii "/r") [] = .ok (1, trace) ∧
      Walks (ascii "/r") smallTree trace := by
  have presented : Represents smallFs (ascii "/r") smallTree :=
    ⟨⟨_, rfl, 4, 4, by decide⟩, ⟨_, rfl, 4, 4, by decide⟩, trivial, trivial⟩
  refine ⟨presented, readFileList_walks (by decide) presented ?_ (by decide)⟩
  rintro path (rfl | mem)
  · decide
  · have known : (path, FileType.dir) ∈ [(ascii "/r/d", FileType.dir),
        (ascii "/r/d/l", FileType.lnk), (ascii "/r/f", FileType.reg)] := mem
    simp only [List.mem_cons, Prod.mk.injEq, reduceCtorEq, and_false, and_true, or_false,
      List.not_mem_nil] at known
    rw [known]
    decide

end LinuxProgram.ReadDir
