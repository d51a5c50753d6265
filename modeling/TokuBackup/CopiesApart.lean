import TokuBackup.SourceMembership
import TokuBackup.Copier.Invariant

/-!
# Which files share a copy

The copier gives a place in the backup to every entry below a source directory, and the
capture side gives one to every path that it translates. `verify_no_two_directories_are_the_same`
would have to keep two files from getting the same place; `copies_apart_iff` says what it would
have to look for. Destinations may lie in each other, and even coincide, but only as their
sources do.
-/

namespace TokuBackup

open Kernel

namespace DirectorySet

/-- A copy of the file is made at the place, which is given by its components. -/
inductive CopiedTo (D : DirectorySet) : Path → List Path → Prop
  /-- `copy_stripped_file` of `.` -/
  | root (source destination : Path) (hd : (source, destination) ∈ D.dirs) :
      CopiedTo D source (components destination)
  /-- `copy_stripped_file` of any other name -/
  | entry (source destination file : Path) (hd : (source, destination) ∈ D.dirs)
      (hfile : Built file) :
      CopiedTo D (pathcat source file) (components (pathcat destination file))
  /-- `translate_prefix_of_realpath`, for a path that the strings put in the right directory -/
  | capture (file path : Path) (h : D.Respects file)
      (hpath : D.translatePrefixOfRealpath file = some path) : CopiedTo D file (components path)

/-- Two files that have a copy in one place are the same. -/
def CopiesApart (D : DirectorySet) : Prop :=
  ∀ file file' place, D.CopiedTo file place → D.CopiedTo file' place →
    components file = components file'

/-- Where a destination lies in another one, its source lies in the other source alike. -/
def NestedAlike (D : DirectorySet) : Prop :=
  ∀ d ∈ D.dirs, ∀ d' ∈ D.dirs, components d.2 <+: components d'.2 →
    components d'.1 = components d.1 ++ (components d'.2).drop (components d.2).length

instance (D : DirectorySet) : Decidable D.NestedAlike :=
  inferInstanceAs (Decidable (∀ d ∈ D.dirs, ∀ d' ∈ D.dirs, components d.2 <+: components d'.2 → _))

variable {D : DirectorySet}

/-! ## Places below a destination -/

/-- A copy lies below a destination as its file lies below the source. -/
theorem CopiedTo.below {file : Path} {place : List Path} (h : D.CopiedTo file place) :
    ∃ d ∈ D.dirs, ∃ rel, components file = components d.1 ++ rel ∧
      place = components d.2 ++ rel := by
  cases h with
  | root source destination hd =>
    exact ⟨_, hd, [], (List.append_nil _).symm, (List.append_nil _).symm⟩
  | entry source destination file hd hfile =>
    exact ⟨_, hd, components file, components_pathcat _ _, components_pathcat _ _⟩
  | capture file path h hpath =>
    obtain ⟨i, hi⟩ := Option.isSome_iff_exists.mp (D.prefix_of_translate hpath)
    obtain ⟨source, destination, hfirst⟩ := firstPrefix_of_find hi
    obtain ⟨⟨rel, hrel⟩, htranslate⟩ := h.2 i source destination hi hfirst.1
    rw [hpath, Option.map_some, Option.some.injEq, ← hrel, List.drop_left] at htranslate
    exact ⟨_, List.mem_of_getElem? hfirst.1, rel, hrel.symm, htranslate⟩

/-- The copier has a place for every name below a source directory. -/
theorem exists_built {rel : List Path} (hne : rel ≠ []) (h : ∀ n ∈ rel, IsEntry n) :
    ∃ file, Built file ∧ components file = rel := by
  induction rel using List.reverseRecOn with
  | nil => exact absurd rfl hne
  | append_singleton rel n ih =>
    have hn : IsEntry n := h n (List.mem_append_right _ (List.mem_singleton.mpr rfl))
    by_cases hnil : rel = []
    · refine ⟨_, Built.top n hn, ?_⟩
      rw [entryName, components_append_slash, components_nil, components_name hn.1, hnil]
    · obtain ⟨file, hfile, hcomponents⟩ := ih hnil fun m hm => h m (List.mem_append_left _ hm)
      refine ⟨_, Built.inside file n hfile hn, ?_⟩
      rw [entryName, components_append_slash, components_name hn.1, hcomponents]

theorem exists_copiedTo {d : Path × Path} {rel : List Path} (hd : d ∈ D.dirs)
    (h : ∀ n ∈ rel, IsEntry n) :
    ∃ file, D.CopiedTo file (components d.2 ++ rel) ∧ components file = components d.1 ++ rel := by
  by_cases hnil : rel = []
  · rw [hnil, List.append_nil, List.append_nil]
    exact ⟨d.1, CopiedTo.root d.1 d.2 hd, rfl⟩
  · obtain ⟨file, hfile, rfl⟩ := exists_built hnil h
    refine ⟨pathcat d.1 file, ?_, components_pathcat _ _⟩
    rw [← components_pathcat]
    exact CopiedTo.entry d.1 d.2 file hd hfile

/-- One of two destinations with a place in common contains the other. -/
theorem NestedAlike.same (hnested : D.NestedAlike) {d d' : Path × Path} {rel rel' : List Path}
    (hd : d ∈ D.dirs) (hd' : d' ∈ D.dirs) (hin : components d.2 <+: components d'.2)
    (h : components d.2 ++ rel = components d'.2 ++ rel') :
    components d.1 ++ rel = components d'.1 ++ rel' := by
  have hsource := hnested d hd d' hd' hin
  obtain ⟨k, hk⟩ := hin
  rw [← hk, List.append_assoc, List.append_right_inj] at h
  rw [← hk, List.drop_left] at hsource
  rw [hsource, h, List.append_assoc]

theorem NestedAlike.copiesApart (hnested : D.NestedAlike) : D.CopiesApart := by
  intro file file' place h h'
  obtain ⟨d, hd, rel, hfile, hplace⟩ := h.below
  obtain ⟨d', hd', rel', hfile', hplace'⟩ := h'.below
  have hsame := hplace.symm.trans hplace'
  rw [hfile, hfile']
  rcases List.prefix_or_prefix_of_prefix (List.prefix_append (components d.2) rel)
    (hsame ▸ List.prefix_append (components d'.2) rel') with hin | hin
  · exact hnested.same hd hd' hin hsame
  · exact (hnested.same hd' hd hin hsame.symm).symm

/-! ## The main result -/

/-- No two files share a copy exactly when the destinations lie in each other only as their
sources do. The names in a destination are the ones that `realpath` returns. -/
theorem copies_apart_iff (D : DirectorySet)
    (hreal : ∀ d ∈ D.dirs, ∀ n ∈ components d.2, IsEntry n) :
    D.CopiesApart ↔ D.NestedAlike := by
  constructor
  · rintro h d hd d' hd' ⟨rel, hrel⟩
    rw [← hrel, List.drop_left]
    -- the copy of `d'` is also the one of what lies in `d` where `d'` lies in the destination
    have hentries : ∀ n ∈ rel, IsEntry n := fun n hn =>
      hreal d' hd' n (hrel ▸ List.mem_append_right _ hn)
    obtain ⟨file, hcopied, hfile⟩ := exists_copiedTo hd hentries
    rw [hrel] at hcopied
    rw [← hfile]
    exact h _ _ _ (CopiedTo.root d'.1 d'.2 hd') hcopied
  · exact NestedAlike.copiesApart

/-- Two sources whose destinations are nested as they are. -/
def nestedPairs : DirectorySet :=
  ⟨[("/s".toList, "/b".toList), ("/s/t".toList, "/b/t".toList)], fun _ => false⟩

theorem copies_apart_nestedPairs : nestedPairs.CopiesApart :=
  (copies_apart_iff nestedPairs (by unfold IsEntry IsName; decide +kernel)).mpr (by decide +kernel)

end DirectorySet

/-- Empty destinations keep the copies apart when they are different directories. -/
theorem Copier.Quiet.copiesApart {D : DirectorySet} {fs : Fs} {table : Path → Option SourceFile}
    (hQ : Quiet D fs table) (hdiffer : DestinationsDiffer D) : D.CopiesApart := by
  apply DirectorySet.NestedAlike.copiesApart
  rintro d hd d' hd' ⟨rel, hrel⟩
  obtain ⟨i, hi⟩ := List.mem_iff_getElem?.mp hd
  obtain ⟨j, hj⟩ := List.mem_iff_getElem?.mp hd'
  obtain ⟨rfl, rfl⟩ := hQ.dest_apart hdiffer hi hj (hrel.trans (List.append_nil _).symm)
  rw [hi, Option.some.injEq] at hj
  rw [hj, List.drop_length, List.append_nil]

end TokuBackup
