import TokuBackup.PathAgreement

/-!
# Which source directory a file is in

`find_index_matching_prefix` compares strings: the first source that is a textual prefix of
the path wins. A file is in a directory when the components of the directory's path begin
those of its own. `respects_iff` says for which paths the strings give the same answer and
the translated path is the destination followed by the rest of the components: the first
textual match has to end at a boundary of the path, and the root, whose slash is cut off
with it, has to be paired with the root unless nothing follows.
-/

namespace TokuBackup

open Kernel

/-- The file is the directory or below it. -/
def Contains (directory file : Path) : Prop := components directory <+: components file

namespace DirectorySet

variable (D : DirectorySet)

/-- Membership and translation follow the components of the path. -/
def Respects (file : Path) : Prop :=
  (D.findIndexMatchingPrefix file = none ↔ ∀ d ∈ D.dirs, ¬ Contains d.1 file) ∧
    ∀ i source destination, D.findIndexMatchingPrefix file = some i →
      D.dirs[i]? = some (source, destination) →
        Contains source file ∧
          (D.translatePrefixOfRealpath file).map components =
            some (components destination ++ (components file).drop (components source).length)

end DirectorySet

/-- The source, a prefix of the file's path, ends where a component does, and cutting it off
leaves something that can be put behind the destination. -/
def AtBoundary (source destination file : Path) : Prop :=
  if source = ['/'] then file = ['/'] ∨ destination = ['/']
  else file = source ∨ source ++ ['/'] <+: file

instance decidableAtBoundary (s d f : Path) : Decidable (AtBoundary s d f) := by
  unfold AtBoundary
  infer_instance

/-! ## Prefixes and components -/

section

variable {source destination file n w : Path}

/-- The components of real paths are prefixes of each other only when the paths are. -/
theorem prefix_of_contains (hsource : IsRealPath source) (hfile : IsRealPath file)
    (h : Contains source file) : source <+: file := by
  obtain ⟨v, hv⟩ := hfile.head
  rcases hsource with rfl | ⟨names, hne, hnames, rfl⟩
  · rw [hv]
    exact ⟨v, rfl⟩
  · rw [Contains, components_slashed hnames] at h
    rcases hfile with rfl | ⟨names', -, hnames', rfl⟩
    · rw [components_slash, components_nil, List.prefix_nil] at h
      exact absurd h hne
    · rw [components_slashed hnames'] at h
      obtain ⟨rest, rfl⟩ := h
      rw [slashed_append]
      exact List.prefix_append _ _

/-- What follows a textual prefix begins with a slash exactly when the prefix contains the
file. -/
theorem contains_append_iff (hsource : IsRealPath source) (hroot : source ≠ ['/']) (t : Path) :
    Contains source (source ++ t) ↔ t = [] ∨ ∃ v, t = '/' :: v := by
  have hlast := hsource.last.resolve_left hroot
  constructor
  · intro h
    by_contra hno
    rw [not_or] at hno
    have hhead : t.head? ≠ some '/' := fun hh => hno.2 (List.head?_eq_some_iff.mp hh)
    obtain ⟨n, w, rfl, hn, hw⟩ := exists_first hno.1 hhead
    obtain ⟨y, l, rfl, hl, hy⟩ := exists_last source
    have hlname := isName_last hlast hy hl
    rw [Contains, components_extend hy hl hn hw, components_last hy hlname,
      List.append_assoc, List.prefix_append_right_inj, List.singleton_append,
      List.cons_prefix_cons] at h
    have hlen := congrArg List.length h.1
    rw [List.length_append] at hlen
    exact hn.1 (List.length_eq_zero_iff.mp (by omega))
  · intro h
    rw [Contains, components_append source h]
    exact List.prefix_append _ _

/-- A name put right behind a real path is a component of its own only behind the root. -/
theorem components_join_iff (hdest : IsRealPath destination) (hn : IsName n)
    (hw : w = [] ∨ ∃ v, w = '/' :: v) :
    components (destination ++ (n ++ w)) = components destination ++ ([n] ++ components w) ↔
      destination = ['/'] := by
  constructor
  · intro h
    by_contra hroot
    have hlast := hdest.last.resolve_left hroot
    obtain ⟨y, l, rfl, hl, hy⟩ := exists_last destination
    have hlname := isName_last hlast hy hl
    have hlen := congrArg List.length h
    rw [components_extend hy hl hn hw, components_last hy hlname] at hlen
    simp only [List.length_append, List.length_singleton] at hlen
    omega
  · rintro rfl
    rw [List.singleton_append, components_slash, components_append n hw, components_name hn,
      components_slash, components_nil, List.nil_append]

/-- For the first source that is a prefix, the answer follows the components exactly when the
prefix ends at a boundary. -/
theorem atBoundary_iff (hsource : IsRealPath source) (hdest : IsRealPath destination)
    (hfile : IsRealPath file) (hpre : source <+: file) :
    (Contains source file ∧ components (destination ++ file.drop source.length) =
        components destination ++ (components file).drop (components source).length) ↔
      AtBoundary source destination file := by
  obtain ⟨t, rfl⟩ := hpre
  rw [List.drop_left, AtBoundary]
  by_cases hroot : source = ['/']
  · rw [if_pos hroot, hroot, Contains, components_slash, components_nil, List.length_nil,
      List.drop_zero, List.singleton_append, components_slash]
    rw [hroot] at hfile
    rcases hfile with hnil | ⟨names, hne, hnames, ht⟩
    · -- nothing follows the root
      rw [List.singleton_append, List.cons.injEq] at hnil
      rw [hnil.2, List.append_nil, components_nil, List.append_nil]
      exact iff_of_true ⟨List.nil_prefix, rfl⟩ (Or.inl rfl)
    · obtain ⟨n, names, rfl⟩ := List.exists_cons_of_ne_nil hne
      rw [slashed_cons, List.singleton_append, List.cons.injEq] at ht
      have hn : IsName n := hnames n List.mem_cons_self
      have hw : slashed names = [] ∨ ∃ v, slashed names = '/' :: v := by
        cases names with
        | nil => exact Or.inl rfl
        | cons m names => exact Or.inr ⟨_, slashed_cons m names⟩
      rw [ht.2, components_append n hw, components_name hn, components_join_iff hdest hn hw]
      constructor
      · rintro ⟨-, hd⟩
        exact Or.inr hd
      · rintro (hnil | hd)
        · rw [List.cons.injEq] at hnil
          exact absurd (List.append_eq_nil_iff.mp hnil.2).1 hn.1
        · exact ⟨List.nil_prefix, hd⟩
  · rw [if_neg hroot, contains_append_iff hsource hroot]
    constructor
    · rintro ⟨rfl | ⟨v, rfl⟩, -⟩
      · exact Or.inl (List.append_nil _)
      · exact Or.inr ⟨v, by rw [List.append_assoc, List.singleton_append]⟩
    · intro h
      have ht : t = [] ∨ ∃ v, t = '/' :: v := by
        rcases h with h | ⟨v, hv⟩
        · exact Or.inl (List.append_right_eq_self.mp h)
        · rw [List.append_assoc, List.append_right_inj, List.singleton_append] at hv
          exact Or.inr ⟨v, hv.symm⟩
      refine ⟨ht, ?_⟩
      rw [components_append destination ht, components_append source ht, List.drop_left]

end

/-! ## The main result -/

/-- The search for a source directory and the translation respect the components of a path
exactly when its first textual prefix among the sources ends at a boundary. -/
theorem respects_iff {D : DirectorySet} (hreal : ∀ d ∈ D.dirs, IsRealPath d.1 ∧ IsRealPath d.2)
    {file : Path} (hfile : IsRealPath file) :
    D.Respects file ↔
      ∀ j source destination, D.FirstPrefix file j source destination →
        AtBoundary source destination file := by
  constructor
  · intro h j source destination hfirst
    obtain ⟨hsource, hdest⟩ := hreal _ (List.mem_of_getElem? hfirst.1)
    obtain ⟨hin, htranslate⟩ :=
      h.2 j source destination (DirectorySet.find_of_firstPrefix hfirst) hfirst.1
    rw [DirectorySet.translate_of_firstPrefix hfirst, Option.map_some, Option.some.injEq]
      at htranslate
    exact (atBoundary_iff hsource hdest hfile hfirst.2.1).mp ⟨hin, htranslate⟩
  · intro h
    -- what holds of the first prefix, whichever way it is found
    have hfound : ∀ i source destination, D.FirstPrefix file i source destination →
        Contains source file ∧ (D.translatePrefixOfRealpath file).map components =
          some (components destination ++ (components file).drop (components source).length) := by
      intro i source destination hfirst
      obtain ⟨hsource, hdest⟩ := hreal _ (List.mem_of_getElem? hfirst.1)
      obtain ⟨hin, htranslate⟩ := (atBoundary_iff hsource hdest hfile hfirst.2.1).mpr
        (h i source destination hfirst)
      refine ⟨hin, ?_⟩
      rw [DirectorySet.translate_of_firstPrefix hfirst, Option.map_some, htranslate]
    refine ⟨⟨?_, ?_⟩, ?_⟩
    · intro hnone d hd hin
      obtain ⟨i, hi⟩ := List.mem_iff_getElem?.mp hd
      obtain ⟨j, s, d', hfirst⟩ := DirectorySet.exists_firstPrefix (D := D) hi
        (prefix_of_contains (hreal _ hd).1 hfile hin)
      rw [DirectorySet.find_of_firstPrefix hfirst] at hnone
      cases hnone
    · intro hout
      by_contra hsome
      obtain ⟨i, hi⟩ := Option.ne_none_iff_exists'.mp hsome
      obtain ⟨s, d, hfirst⟩ := DirectorySet.firstPrefix_of_find hi
      exact hout _ (List.mem_of_getElem? hfirst.1) (hfound i s d hfirst).1
    · intro i source destination hi hd
      obtain ⟨s, d, hfirst⟩ := DirectorySet.firstPrefix_of_find hi
      have hsame := hfirst.1
      rw [hd, Option.some.injEq, Prod.mk.injEq] at hsame
      obtain ⟨rfl, rfl⟩ := hsame
      exact hfound i _ _ hfirst

theorem isRealPath_f : IsRealPath "/s/f".toList :=
  Or.inr ⟨[['s'], ['f']], List.cons_ne_nil _ _, by unfold IsName; decide, rfl⟩

theorem isRealPath_f2 : IsRealPath "/s2/f".toList :=
  Or.inr ⟨[['s', '2'], ['f']], List.cons_ne_nil _ _, by unfold IsName; decide, rfl⟩

/-- The file of the first directory is found where it is. -/
theorem respects_similarNames : similarNames.Respects "/s/f".toList := by
  refine (respects_iff similarNames_real isRealPath_f).mpr ?_
  intro j source destination hfirst
  have hj := DirectorySet.find_of_firstPrefix hfirst
  have hzero : similarNames.findIndexMatchingPrefix "/s/f".toList = some 0 := by decide
  rw [hzero, Option.some.injEq] at hj
  have hget := hfirst.1
  rw [← hj] at hget
  cases hget
  decide

/-- The file `/s2/f` is taken to be in `/s`. -/
theorem not_respects_similarNames :
    ¬ ∀ (D : DirectorySet), (∀ d ∈ D.dirs, IsRealPath d.1 ∧ IsRealPath d.2) →
      ∀ file, IsRealPath file → D.Respects file := by
  intro h
  have h := (h similarNames similarNames_real "/s2/f".toList isRealPath_f2).2 0 _ _
    (by decide) rfl
  exact absurd h.1 (by unfold Contains; decide +kernel)

end TokuBackup
