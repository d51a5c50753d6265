import TokuBackup.Kernel.Path

/-!
# The directories of a session

A `directory_set` pairs each source directory with its destination. A path belongs to the
first source that is a prefix of it, as a string; the backup's path is the destination
followed by the rest.
-/

namespace TokuBackup

open Kernel

/-- `directory_set` and the exclude callback of the session's `backup_callbacks`. -/
structure DirectorySet where
  /-- The source and the destination of each pair. -/
  dirs : List (Path × Path)
  excludeCopy : Path → Bool

namespace DirectorySet

variable (D : DirectorySet)

def findIndexMatchingPrefix (file : Path) : Option Nat :=
  D.dirs.findIdx? fun d => d.1.isPrefixOf file

def isPrefixOfRealpath (file : Path) : Bool := (D.findIndexMatchingPrefix file).isSome

/-- `translate_prefix_of_realpath`, for a path in a source directory. -/
def translatePrefixOfRealpath (absfile : Path) : Option Path := do
  let index ← D.findIndexMatchingPrefix absfile
  let (source, destination) ← D.dirs[index]?
  return destination ++ absfile.drop source.length

def fileIsExcluded (file : Path) : Bool := D.excludeCopy file

/-- The path lies under a destination directory of the set, as a string. -/
def Under (path : Path) : Prop := ∃ d ∈ D.dirs, d.2 <+: path

theorem translate_of_prefix {file : Path} (h : D.isPrefixOfRealpath file = true) :
    ∃ path, D.translatePrefixOfRealpath file = some path := by
  obtain ⟨index, hindex⟩ := Option.isSome_iff_exists.mp h
  have hlt := (List.findIdx?_eq_some_iff_getElem.mp hindex).1
  refine ⟨D.dirs[index].2 ++ file.drop D.dirs[index].1.length, ?_⟩
  rw [translatePrefixOfRealpath, hindex, Option.bind_eq_bind, Option.bind_some,
    List.getElem?_eq_getElem hlt]
  rfl

theorem prefix_of_translate {file path : Path} (h : D.translatePrefixOfRealpath file = some path) :
    D.isPrefixOfRealpath file = true := by
  obtain ⟨index, hindex, -⟩ := Option.bind_eq_some_iff.mp h
  rw [isPrefixOfRealpath, hindex]
  rfl

theorem under_translate {file path : Path} (h : D.translatePrefixOfRealpath file = some path) :
    D.Under path := by
  obtain ⟨index, -, h⟩ := Option.bind_eq_some_iff.mp h
  obtain ⟨⟨source, destination⟩, hd, h⟩ := Option.bind_eq_some_iff.mp h
  cases h
  exact ⟨_, List.mem_of_getElem? hd, List.prefix_append _ _⟩

theorem under_pathcat {d : Path × Path} (hd : d ∈ D.dirs) (file : Path) :
    D.Under (pathcat d.2 file) := by
  refine ⟨d, hd, ?_⟩
  rw [pathcat]
  split
  · exact List.prefix_append _ _
  · exact List.prefix_append _ _

end DirectorySet

end TokuBackup
