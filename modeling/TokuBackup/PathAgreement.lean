import TokuBackup.DirectorySet
import TokuBackup.Kernel.Components

/-!
# Where a file goes in the backup

The copier and the capture side compute the backup's path of a file independently. The
copier puts the name it has built while walking a source directory behind that directory's
destination. The capture side cuts off the first source that is a prefix of the file's path,
as a string, and puts the rest behind the destination of that source.

`copy_agrees_iff` says when the two paths denote the same file. It fails when an earlier
source is a prefix of the path that ends within a name, when sources are nested and the
destinations are not nested alike, and when the source is the root, whose slash is cut off.
-/

namespace TokuBackup

open Kernel

/-! ## The copier's paths -/

/-- The name that `add_dir_entries_to_todo` builds for an entry of `file`. -/
def entryName (file name : Path) : Path := file ++ '/' :: name

/-- The names that the copier builds below a source directory; it begins with the empty
name of the root. -/
inductive Built : Path → Prop
  | top (name : Path) (h : IsEntry name) : Built (entryName [] name)
  | inside (file name : Path) (hfile : Built file) (h : IsEntry name) : Built (entryName file name)

theorem Built.head {file : Path} (h : Built file) : ∃ n w, file = '/' :: (n ++ w) ∧ IsName n ∧
    (w = [] ∨ ∃ v, w = '/' :: v) := by
  induction h with
  | top name h =>
    exact ⟨name, [], by rw [entryName, List.append_nil, List.nil_append], h.1, Or.inl rfl⟩
  | inside file name hfile h ih =>
    obtain ⟨n, w, rfl, hn, hw⟩ := ih
    refine ⟨n, w ++ '/' :: name, ?_, hn, Or.inr ?_⟩
    · rw [entryName, List.cons_append, List.append_assoc]
    · rcases hw with rfl | ⟨v, rfl⟩
      · exact ⟨name, rfl⟩
      · exact ⟨v ++ '/' :: name, rfl⟩

namespace DirectorySet

variable (D : DirectorySet)

/-- The copier and the capture side agree on the file that the copier knows as `file` in
the directory `i`. -/
def CopyAgrees (i : Nat) (file : Path) : Prop :=
  ∀ source destination, D.dirs[i]? = some (source, destination) →
    (D.translatePrefixOfRealpath (pathcat source file)).map components =
      some (components (pathcat destination file))

/-- `j` is the first pair whose source is a prefix of the path. -/
def FirstPrefix (path : Path) (j : Nat) (source destination : Path) : Prop :=
  D.dirs[j]? = some (source, destination) ∧ source <+: path ∧
    ∀ k < j, ∀ d, D.dirs[k]? = some d → ¬ d.1 <+: path

variable {D} {path source destination : Path} {j : Nat}

theorem find_of_firstPrefix (h : D.FirstPrefix path j source destination) :
    D.findIndexMatchingPrefix path = some j := by
  obtain ⟨hj, hpre, hfirst⟩ := h
  obtain ⟨hlt, hget⟩ := List.getElem?_eq_some_iff.mp hj
  rw [findIndexMatchingPrefix, List.findIdx?_eq_some_iff_getElem]
  refine ⟨hlt, ?_, fun k hk => ?_⟩
  · rw [hget, List.isPrefixOf_iff_prefix]
    exact hpre
  · rw [List.isPrefixOf_iff_prefix]
    exact hfirst k hk _ (List.getElem?_eq_getElem _)

theorem firstPrefix_of_find (h : D.findIndexMatchingPrefix path = some j) :
    ∃ source destination, D.FirstPrefix path j source destination := by
  obtain ⟨hlt, hj, hfirst⟩ := List.findIdx?_eq_some_iff_getElem.mp h
  refine ⟨_, _, List.getElem?_eq_getElem hlt, List.isPrefixOf_iff_prefix.mp hj, ?_⟩
  intro k hk d hd hpath
  obtain ⟨hlt', rfl⟩ := List.getElem?_eq_some_iff.mp hd
  exact hfirst k hk (List.isPrefixOf_iff_prefix.mpr hpath)

theorem exists_firstPrefix {i : Nat} (hi : D.dirs[i]? = some (source, destination))
    (hpre : source <+: path) :
    ∃ j source' destination', D.FirstPrefix path j source' destination' := by
  have hmem : ∃ d ∈ D.dirs, d.1.isPrefixOf path = true :=
    ⟨_, List.mem_of_getElem? hi, List.isPrefixOf_iff_prefix.mpr hpre⟩
  have hsome : (D.dirs.findIdx? fun d => d.1.isPrefixOf path).isSome := by
    rw [List.findIdx?_isSome, List.any_eq_true]
    exact hmem
  obtain ⟨j, hj⟩ := Option.isSome_iff_exists.mp hsome
  exact ⟨j, firstPrefix_of_find hj⟩

theorem translate_of_firstPrefix (h : D.FirstPrefix path j source destination) :
    D.translatePrefixOfRealpath path = some (destination ++ path.drop source.length) := by
  rw [translatePrefixOfRealpath, find_of_firstPrefix h, Option.bind_eq_bind, Option.bind_some, h.1]
  rfl

end DirectorySet

/-! ## When the paths agree -/

/-- The pair of `source'` puts what is in both source directories where the pair of `source`
puts it. -/
def SamePlace (source destination source' destination' : Path) : Prop :=
  if source' <+: source then
    -- cutting off the root's slash joins the destination with the first name
    if source = ['/'] then destination = ['/'] ∧ destination' = ['/']
    else components (destination' ++ source.drop source'.length) = components destination
  else components destination' = components destination ++ components (source'.drop source.length)

instance decidableSamePlace (s d s' d' : Path) : Decidable (SamePlace s d s' d') := by
  unfold SamePlace
  infer_instance

section

variable {source destination source' destination' file t : Path}

theorem pathcat_root (hfile : file.head? = some '/') : pathcat ['/'] file = file := by
  obtain ⟨v, rfl⟩ := List.head?_eq_some_iff.mp hfile
  rfl

theorem pathcat_real (hs : source.getLast? ≠ some '/') (hfile : file.head? = some '/') :
    pathcat source file = source ++ file := by
  obtain ⟨v, rfl⟩ := List.head?_eq_some_iff.mp hfile
  rw [pathcat, if_neg hs]
  rfl

/-- The source of the pair is a prefix of the source directory. -/
theorem agree_outer (hsource : IsRealPath source) (hdest : IsRealPath destination)
    (hdest' : IsRealPath destination') (hfile : Built file) (hsource' : IsRealPath source')
    (hout : source' <+: source) :
    components (destination' ++ (pathcat source file).drop source'.length) =
        components destination ++ components file ↔
      SamePlace source destination source' destination' := by
  obtain ⟨n, w, rfl, hn, hw⟩ := hfile.head
  rw [SamePlace, if_pos hout]
  by_cases hroot : source = ['/']
  · have hroot' : source' = ['/'] := by
      obtain ⟨v, rfl⟩ := hsource'.head
      rw [hroot, List.cons_prefix_cons, List.prefix_nil] at hout
      rw [hout.2]
    rw [if_pos hroot, hroot, hroot', pathcat_root rfl]
    change components (destination' ++ (n ++ w)) = _ ↔ _
    rw [components_slash, components_append n hw, components_name hn,
      ← List.append_assoc (components destination)]
    rcases hdest'.last with rfl | hlast
    · have hjoin : components (['/'] ++ (n ++ w)) = [] ++ [n] ++ components w := by
        rw [List.singleton_append, components_slash, components_append n hw, components_name hn]
        rfl
      rw [hjoin, List.append_left_inj, List.append_left_inj, eq_comm, hdest.components_eq_nil]
      simp
    · obtain ⟨y, l, rfl, hl, hy⟩ := exists_last destination'
      have hlname := isName_last hlast hy hl
      rw [components_extend hy hl hn hw, List.append_left_inj]
      constructor
      · intro h
        have h := (List.append_inj' h rfl).2
        rw [List.cons.injEq] at h
        have hlen := congrArg List.length h.1
        rw [List.length_append] at hlen
        exact absurd (List.length_eq_zero_iff.mp (by omega)) hlname.1
      · rintro ⟨-, h⟩
        rw [h] at hlast
        exact absurd rfl hlast.2
  · have hlast := (hsource.last.resolve_left hroot).2
    rw [if_neg hroot, pathcat_real hlast rfl]
    obtain ⟨m, rfl⟩ := hout
    rw [List.append_assoc, List.drop_left, List.drop_left, ← List.append_assoc,
      components_append_slash, components_slash, List.append_left_inj]

/-- The source directory is a proper prefix of the source of the pair. -/
theorem agree_inner (hsource : IsRealPath source) (hsource' : IsRealPath source')
    (hdest' : IsRealPath destination') (hfile : Built file) (hin : ¬ source' <+: source)
    (hpre : source' <+: pathcat source file) :
    components (destination' ++ (pathcat source file).drop source'.length) =
        components destination ++ components file ↔
      SamePlace source destination source' destination' := by
  obtain ⟨n, w, rfl, -, -⟩ := hfile.head
  obtain ⟨t, ht⟩ := hpre
  have hprefix : source <+: pathcat source ('/' :: (n ++ w)) := by
    by_cases hroot : source = ['/']
    · rw [hroot, pathcat_root rfl]
      exact ⟨_, rfl⟩
    · rw [pathcat_real (hsource.last.resolve_left hroot).2 rfl]
      exact List.prefix_append _ _
  obtain ⟨r, rfl⟩ := (List.prefix_or_prefix_of_prefix ⟨t, ht⟩ hprefix).resolve_left hin
  have hr : r ≠ [] := by
    rintro rfl
    rw [List.append_nil] at hin
    exact hin (List.prefix_refl source)
  have hlast : r.getLast? ≠ some '/' := by
    rcases hsource'.last with hroot | ⟨-, hlast⟩
    · obtain ⟨v, rfl⟩ := hsource.head
      rw [hroot] at hin
      exact absurd ⟨v, rfl⟩ hin
    · rw [List.getLast?_append, Option.or_of_isSome (by simpa using hr)] at hlast
      exact hlast
  have hcomponents : components ('/' :: (n ++ w)) = components (r ++ t) := by
    rw [List.append_assoc] at ht
    by_cases hroot : source = ['/']
    · rw [hroot, pathcat_root rfl] at ht
      rw [← ht, List.singleton_append, components_slash]
    · rw [pathcat_real (hsource.last.resolve_left hroot).2 rfl, List.append_right_inj] at ht
      rw [ht]
  rw [SamePlace, if_neg hin, hcomponents, ← ht, List.drop_left, List.drop_left]
  exact components_extend_iff _ ⟨hr, hlast⟩ hdest'.last t

end

/-! ## The main result -/

/-- The copier and the capture side agree on a file exactly when the first source that is a
prefix of its path, as a string, belongs to a pair that puts the file in the same place. -/
theorem copy_agrees_iff {D : DirectorySet}
    (hreal : ∀ d ∈ D.dirs, IsRealPath d.1 ∧ IsRealPath d.2) {i : Nat} {source destination : Path}
    (hi : D.dirs[i]? = some (source, destination)) {file : Path} (hfile : Built file) :
    D.CopyAgrees i file ↔
      ∃ j source' destination', D.FirstPrefix (pathcat source file) j source' destination' ∧
        SamePlace source destination source' destination' := by
  obtain ⟨hsource, hdest⟩ := hreal _ (List.mem_of_getElem? hi)
  obtain ⟨n, w, hhead, -, -⟩ := hfile.head
  have hprefix : source <+: pathcat source file := by
    rw [hhead]
    by_cases hroot : source = ['/']
    · rw [hroot, pathcat_root rfl]
      exact ⟨_, rfl⟩
    · rw [pathcat_real (hsource.last.resolve_left hroot).2 rfl]
      exact List.prefix_append _ _
  obtain ⟨j, source', destination', hfirst⟩ := DirectorySet.exists_firstPrefix hi hprefix
  obtain ⟨hsource', hdest'⟩ := hreal _ (List.mem_of_getElem? hfirst.1)
  -- the pair is the first one in whichever way it is found
  have hunique :
    (∃ j s d, D.FirstPrefix (pathcat source file) j s d ∧ SamePlace source destination s d) ↔
      SamePlace source destination source' destination' := by
    constructor
    · rintro ⟨j', s, d, hfirst', hplace⟩
      have hj := DirectorySet.find_of_firstPrefix hfirst'
      rw [DirectorySet.find_of_firstPrefix hfirst, Option.some.injEq] at hj
      have hd := hfirst'.1
      rw [← hj, hfirst.1, Option.some.injEq, Prod.mk.injEq] at hd
      rw [hd.1, hd.2]
      exact hplace
    · exact fun hplace => ⟨j, source', destination', hfirst, hplace⟩
  have hagree : D.CopyAgrees i file ↔
      components (destination' ++ (pathcat source file).drop source'.length) =
        components destination ++ components file := by
    rw [DirectorySet.CopyAgrees, hi]
    constructor
    · intro h
      have h := h source destination rfl
      rw [DirectorySet.translate_of_firstPrefix hfirst, Option.map_some, Option.some.injEq,
        components_pathcat] at h
      exact h
    · intro h s d hsd
      rw [Option.some.injEq, Prod.mk.injEq] at hsd
      rw [← hsd.1, ← hsd.2, DirectorySet.translate_of_firstPrefix hfirst, Option.map_some, h,
        components_pathcat]
  rw [hagree, hunique]
  by_cases hout : source' <+: source
  · exact agree_outer hsource hdest hdest' hfile hsource' hout
  · exact agree_inner hsource hsource' hdest' hfile hout hfirst.2.1

/-- Two source directories, one of which has the other's name as a prefix of its own. -/
def similarNames : DirectorySet :=
  ⟨[("/s".toList, "/b1".toList), ("/s2".toList, "/b2".toList)], fun _ => false⟩

theorem isRealPath_of_name {n : Path} (h : IsName n) : IsRealPath ('/' :: n) :=
  Or.inr ⟨[n], List.cons_ne_nil _ _, fun m hm => by rwa [List.mem_singleton.mp hm],
    by rw [slashed_cons, slashed, List.flatMap_nil, List.append_nil]⟩

theorem similarNames_real : ∀ d ∈ similarNames.dirs, IsRealPath d.1 ∧ IsRealPath d.2 := by
  intro d hd
  have hname : ∀ n : Path, IsName n → IsRealPath ('/' :: n) := fun n h => isRealPath_of_name h
  simp only [similarNames, List.mem_cons, List.not_mem_nil, or_false] at hd
  rcases hd with rfl | rfl
  · exact ⟨hname _ (by unfold IsName; decide), hname _ (by unfold IsName; decide)⟩
  · exact ⟨hname _ (by unfold IsName; decide), hname _ (by unfold IsName; decide)⟩

theorem built_f : Built "/f".toList :=
  Built.top ['f'] (by unfold IsEntry IsName; decide)

/-- The file `f` of the first directory agrees. -/
theorem copy_agrees_similarNames : similarNames.CopyAgrees 0 "/f".toList :=
  (copy_agrees_iff similarNames_real rfl built_f).mpr
    ⟨0, _, _, ⟨rfl, by decide, by simp⟩, by decide⟩

/-- The copier writes the file `f` of the second directory to `/b2/f`, the capture side to
`/b12/f`. -/
theorem not_copy_agrees_similarNames :
    ¬ ∀ (D : DirectorySet), (∀ d ∈ D.dirs, IsRealPath d.1 ∧ IsRealPath d.2) →
      ∀ i source destination, D.dirs[i]? = some (source, destination) →
        ∀ file, Built file → D.CopyAgrees i file := by
  intro h
  have h := h similarNames similarNames_real 1 _ _ rfl "/f".toList built_f _ _ rfl
  exact absurd h (by decide +kernel)

end TokuBackup
