import TokuBackup.Copier.Tree

/-!
# The invariant of the copier

`Quiet` is what the copier finds. Behind it, a run keeps the following, with `fs₀` and `table₀`
as they were at the start:

* the entries handled so far and the ones on the todo list explore the forest of the trees;
* a destination holds the copies of the handled entries, the one in progress cut off at the
  offset of its descriptor, and nothing else (`Mirrored`);
* the file table is as at the start, except that an open file that was copied keeps its
  destination (`Rested`), and except for the file in progress.
-/

namespace TokuBackup.Copier

open Kernel Lib

/-- The path of an entry that is copied. -/
def IsCopiedName (D : DirectorySet) (fs : Fs) (name : Path) : Prop :=
  ∃ d ∈ D.dirs, ∃ rel, Copied D fs d.1 rel ∧ entryPath d.1 rel = name

/-- Trees that nothing else touches: the sources and the destinations are directories, a
destination is empty and not inside a source, and the files that are copied and are open have
not been removed and have no destination. -/
structure Quiet (D : DirectorySet) (fs : Fs) (table : Path → Option SourceFile) : Prop where
  source_directory : ∀ d ∈ D.dirs, fs.node (components d.1) = some .directory
  dest_directory : ∀ d ∈ D.dirs, fs.node (components d.2) = some .directory
  dest_empty : ∀ d ∈ D.dirs, fs.names (components d.2) = []
  dest_outside : ∀ d ∈ D.dirs, ∀ d' ∈ D.dirs, ¬ components d.1 <+: components d'.2
  no_destination : ∀ name file, IsCopiedName D fs name → table name = some file →
    file.unlinked = false ∧ file.destination = none ∧ 0 < file.references

/-- No directory is the destination of two sources. -/
def DestinationsDiffer (D : DirectorySet) : Prop :=
  (D.dirs.map fun d => components d.2).Nodup

instance (D : DirectorySet) : Decidable (DestinationsDiffer D) :=
  inferInstanceAs (Decidable (List.Nodup _))

/-- No open file is copied for two directories of the set. -/
def OpenFilesCopiedOnce (D : DirectorySet) (fs : Fs) (table : Path → Option SourceFile) : Prop :=
  ∀ (i j : Nat) (d d' : Path × Path) (rel rel' : List Path),
    D.dirs[i]? = some d → D.dirs[j]? = some d' → i ≠ j →
    Copied D fs d.1 rel → Copied D fs d'.1 rel' → entryPath d.1 rel = entryPath d'.1 rel' →
    table (entryPath d.1 rel) = none

/-! ## Where sources and destinations lie -/

section

variable {D : DirectorySet} {fs : Fs} {table : Path → Option SourceFile} {d d' : Path × Path}
  {i j : Nat} {rel rel' : List Path}

theorem Quiet.below_dest_none (hQ : Quiet D fs table) (hd : d ∈ D.dirs) (hrel : rel ≠ []) :
    fs.node (components d.2 ++ rel) = none := by
  by_contra h
  obtain ⟨n, rel, rfl⟩ := List.exists_cons_of_ne_nil hrel
  have hn : fs.node (components d.2 ++ [n]) ≠ none := by
    by_cases hnil : rel = []
    · rw [hnil] at h
      exact h
    · have hsplit : components d.2 ++ n :: rel = (components d.2 ++ [n]) ++ rel := by simp
      rw [hsplit] at h
      rw [Fs.directory_of_append h hnil]
      exact Option.some_ne_none _
  have hmem := Fs.mem_names.mpr hn
  rw [hQ.dest_empty d hd] at hmem
  exact List.not_mem_nil hmem

/-- No source entry lies in a destination. -/
theorem Quiet.source_apart (hQ : Quiet D fs table) (hd : d ∈ D.dirs) (hd' : d' ∈ D.dirs) :
    ¬ components d'.2 <+: components d.1 ++ rel := by
  intro h
  rcases List.prefix_or_prefix_of_prefix h (List.prefix_append (components d.1) rel) with
    hin | hin
  · obtain ⟨k, hk⟩ := hin
    by_cases hnil : k = []
    · rw [hnil, List.append_nil] at hk
      exact hQ.dest_outside d hd d' hd' (hk ▸ List.prefix_refl _)
    · have hnode := hQ.source_directory d hd
      rw [← hk, hQ.below_dest_none hd' hnil] at hnode
      cases hnode
  · exact hQ.dest_outside d hd d' hd' hin

/-- Two destinations have no entry in common. -/
theorem Quiet.dest_apart (hQ : Quiet D fs table) (hdiffer : DestinationsDiffer D)
    (hd : D.dirs[i]? = some d) (hd' : D.dirs[j]? = some d')
    (h : components d.2 ++ rel = components d'.2 ++ rel') : i = j ∧ rel = rel' := by
  have hmem := List.mem_of_getElem? hd
  have hmem' := List.mem_of_getElem? hd'
  -- a destination strictly inside another one would not leave that one empty
  have hnot : ∀ {c c' : Path × Path}, c ∈ D.dirs → c' ∈ D.dirs →
      components c.2 <+: components c'.2 → components c.2 = components c'.2 := by
    rintro c c' hc hc' ⟨k, hk⟩
    by_cases hnil : k = []
    · rw [hnil, List.append_nil] at hk
      exact hk
    · have hnode := hQ.dest_directory c' hc'
      rw [← hk, hQ.below_dest_none hc hnil] at hnode
      cases hnode
  have heq : components d.2 = components d'.2 := by
    rcases List.prefix_or_prefix_of_prefix (List.prefix_append (components d.2) rel)
      (h ▸ List.prefix_append (components d'.2) rel') with hin | hin
    · exact hnot hmem hmem' hin
    · exact (hnot hmem' hmem hin).symm
  refine ⟨?_, List.append_cancel_left (heq ▸ h)⟩
  apply (List.getElem?_inj _ hdiffer).mp
  · rw [List.getElem?_map, List.getElem?_map, hd, hd', Option.map_some, Option.map_some, heq]
  · rw [List.length_map]
    exact (List.getElem?_eq_some_iff.mp hd).1

end

/-! ## The destinations -/

/-- The entry that is being copied, with the number of bytes written. -/
abbrev Current := Option (Item × Nat)

/-- A copy of which only `w` bytes have been written. -/
def cutNode (w : Nat) : Node → Node
  | .directory => .directory
  | .regular content => .regular (content.truncate w)

/-- The copy of the entry `x` of which `v` is the source. -/
def copyOf (cur : Current) (x : Item) (v : Node) : Node :=
  match cur with
  | some (y, w) => if y = x then cutNode w v else v
  | none => v

/-- What a destination holds at `x` when the entries of `seen` have been handled. -/
def image (D : DirectorySet) (fs₀ : Fs) (seen : List Item) (cur : Current) (x : Item)
    (source : Path) : Option Node :=
  if x ∈ seen ∧ D.excludeCopy (entryPath source x.2) = false then
    (fs₀.node (components source ++ x.2)).map (copyOf cur x)
  else if x.2 = [] then some .directory
  else none

structure Mirrored (D : DirectorySet) (fs₀ : Fs) (seen : List Item) (cur : Current) (fs : Fs) :
    Prop where
  outside : ∀ l, (∀ d ∈ D.dirs, ¬ components d.2 <+: l) → fs.node l = fs₀.node l
  inside : ∀ i d rel, D.dirs[i]? = some d →
    fs.node (components d.2 ++ rel) = image D fs₀ seen cur (i, rel) d.1

/-! ## The file table -/

/-- A source file between two copies. -/
def Rested (D : DirectorySet) (fs₀ : Fs) (table₀ : Path → Option SourceFile) (seen : List Item)
    (name : Path) (file : SourceFile) : Prop :=
  file.unlinked = false ∧
    (∃ file₀, table₀ name = some file₀ ∧ file.references = file₀.references) ∧
    (file.destination ≠ none → ∃ x ∈ seen, ∃ d, D.dirs[x.1]? = some d ∧
      Copied D fs₀ d.1 x.2 ∧ entryPath d.1 x.2 = name)

/-- The file that is being copied to `dest`, of which `w` bytes have been written. -/
def InProgress (table₀ : Path → Option SourceFile) (name : Path) (dest : List Path) (w : Nat)
    (file : SourceFile) : Prop :=
  file.unlinked = false ∧ file.destination = some ⟨dest, w⟩ ∧
    (file.references = 1 ∨
      ∃ file₀, table₀ name = some file₀ ∧ file.references = file₀.references + 1)

/-! ## The invariant -/

/-- The roots of the directories from `i` on. -/
def rootsFrom (D : DirectorySet) (i : Nat) : List Item :=
  (List.range' i (D.dirs.length - i)).map fun j => (j, [])

section

variable (D : DirectorySet) (fs₀ : Fs) (table₀ : Path → Option SourceFile)

/-- The part of the invariant about the todo list: `pending` are the entries on it. -/
structure Exploring (s : State) (seen : List Item) (pending : List (List Path))
    (later : List Item) : Prop where
  handled : s.handled = seen.map fun x => (x.1, todoName x.2)
  todo : s.todo = pending.map todoName
  explored :
    Explored (roots D) (children D fs₀) seen (pending.map (fun rel => (s.index, rel)) ++ later)

/-- Between two copies. -/
structure Resting (s : State) (seen : List Item) : Prop where
  mirrored : Mirrored D fs₀ seen none s.fs
  table : ∀ name file, IsCopiedName D fs₀ name → s.table name = some file →
    Rested D fs₀ table₀ seen name file

/-- In the middle of copying `rel` of the directory `d`: `w` bytes have been written, and
`pending` bytes have been read and not written. -/
structure Busy (s : State) (seen : List Item) (d : Path × Path) (rel : List Path)
    (content : Content) (c : Copying) (w pending : Nat) : Prop where
  dir : D.dirs[s.index]? = some d
  mem_seen : (s.index, rel) ∈ seen
  copied : Copied D fs₀ d.1 rel
  source : c.source = entryPath d.1 rel
  regular : fs₀.node (components d.1 ++ rel) = some (.regular content)
  mirrored : Mirrored D fs₀ seen (some ((s.index, rel), w)) s.fs
  table : ∀ name file, name ≠ c.source → IsCopiedName D fs₀ name → s.table name = some file →
    Rested D fs₀ table₀ seen name file
  file : ∃ file, s.table c.source = some file ∧
    InProgress table₀ c.source (components d.2 ++ rel) w file
  /-- The three offsets are in step. -/
  written : c.totalWritten = w
  offset : c.offset = w + pending
  bound : c.offset ≤ content.len

def Inv (s : State) : Prop :=
  ∃ seen pending, match s.pc with
    | .next => s.index ≤ D.dirs.length ∧ pending = [] ∧
        Exploring D fs₀ s seen pending (rootsFrom D s.index) ∧ Resting D fs₀ table₀ s seen
    | .loop => s.index < D.dirs.length ∧
        Exploring D fs₀ s seen pending (rootsFrom D (s.index + 1)) ∧ Resting D fs₀ table₀ s seen
    | .reading c => Exploring D fs₀ s seen pending (rootsFrom D (s.index + 1)) ∧
        ∃ d rel content w, Busy D fs₀ table₀ s seen d rel content c w 0
    | .writing c buf n => Exploring D fs₀ s seen pending (rootsFrom D (s.index + 1)) ∧
        n < buf.length ∧ ∃ d rel content w, buf = content.read (w - n) buf.length ∧
          n ≤ w ∧ Busy D fs₀ table₀ s seen d rel content c w (buf.length - n)
    | .returned r => r = 0 ∧ pending = [] ∧
        Exploring D fs₀ s seen pending [] ∧ Resting D fs₀ table₀ s seen

end

end TokuBackup.Copier
