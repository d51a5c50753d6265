import TokuBackup.Interpose.Manager
import TokuBackup.Kernel.FileSystem
import TokuBackup.PathAgreement

/-!
# Captured `mkdir`

`capture_mkdir` hands the translated path to `open_path`, which was written for files: when
the path does not exist in the backup, `create_subdirectories` makes every directory that ends
before a slash of it, and so not the directory itself. `made_iff` executes the capture on a
backup in any state: the directory is there afterwards only when it was there before, because
the copier had made it.
-/

namespace TokuBackup.Interpose

open Kernel Table Lib
open DoBackup (Errno)
open Prog

/-! ## The backup as a file system -/

/-- The `errno` of a failed call. -/
def failure (e : FsError) : Errno := ⟨e.errno, by cases e <;> decide⟩

/-- Whether a call may answer so: with what the file system says, or with an error that is not
about which names exist. -/
def answers {α : Type} (result : Except FsError α) (r : Except Errno Nat) : Bool :=
  match result, r with
  | .ok _, .ok _ => true
  | .error _, .ok _ => false
  | .ok _, .error e => e ≠ .enoent ∧ e ≠ .eexist
  | .error e', .error e => failure e' = e ∨ e ≠ .enoent ∧ e ≠ .eexist

/-- The operations of `capture_mkdir`, on the backup's file system; `absfile` is the real path
of the directory that the application has made. -/
def mirrorHandler (absfile : Path) : Handler Op.Answer Fs where
  reply
    | .realpath _ _, _ => some (.ok absfile)
    | _, _ => none
  allows
    | .backup (.stat path), fs, r => answers (fs.stat path) r
    | .backup (.mkdir path), fs, r => answers (fs.mkdir path) r
    | _, _, _ => true
  next
    | .backup (.mkdir path), fs, .ok _ => (fs.mkdir path).toOption.getD fs
    | _, fs, _ => fs

/-- The directory and all that lies above it exist as directories. -/
def Made (fs : Fs) (path : Path) : Prop :=
  ∀ k, k <+: components path → fs.node k = some .directory

/-! ## What the capture makes -/

/-- Between the file systems directories have been made, at some of the paths. -/
def Grown (paths : List Path) (fs fs' : Fs) : Prop :=
  ∀ k, fs'.node k = fs.node k ∨
    fs.node k = none ∧ fs'.node k = some .directory ∧ ∃ d ∈ paths, components d = k

section

variable {fs fs' fs'' : Fs} {d path : Path} {paths : List Path} {k : List Path}

theorem Grown.refl (paths : List Path) (fs : Fs) : Grown paths fs fs := fun _ => Or.inl rfl

theorem Grown.keeps (h : Grown paths fs fs') (hk : fs.node k ≠ none) : fs'.node k = fs.node k := by
  rcases h k with h | ⟨hnone, -, -⟩
  · exact h
  · exact absurd hnone hk

theorem Grown.trans_cons (h : Grown [d] fs fs') (h' : Grown paths fs' fs'') :
    Grown (d :: paths) fs fs'' := by
  intro k
  rcases h k with hk | ⟨hnone, hdir, d', hd', hcomponents⟩
  · rcases h' k with hk' | ⟨hnone, hdir, d', hd', hcomponents⟩
    · exact Or.inl (hk'.trans hk)
    · exact Or.inr ⟨hk ▸ hnone, hdir, d', List.mem_cons_of_mem d hd', hcomponents⟩
  · have hkeeps := h'.keeps (k := k) (by rw [hdir]; exact Option.some_ne_none _)
    refine Or.inr ⟨hnone, hkeeps.trans hdir, d', ?_, hcomponents⟩
    rw [List.mem_singleton.mp hd']
    exact List.mem_cons_self

/-- Nothing is made outside a list that is skipped. -/
theorem Grown.cons (h : Grown paths fs fs') : Grown (d :: paths) fs fs' :=
  (Grown.refl [d] fs).trans_cons h

theorem node_create {l : List Path} {v : Node} {dots : FsError}
    {hfree : fs.node l ≠ some .directory}
    (h : fs.create l v dots hfree = .ok fs') (k : List Path) :
    fs'.node k = if k = l then some v else fs.node k := by
  rw [Fs.create] at h
  split at h
  · split at h
    · split at h
      · cases h
        exact Fs.node_set
      · cases h
    · cases h
  · cases h

theorem mkdir_ok (h : fs.mkdir d = .ok fs') :
    fs.node (components d) = none ∧ ∀ k, fs'.node k =
      if k = components d then some .directory else fs.node k := by
  rw [Fs.mkdir] at h
  split at h
  · rename_i hnone
    exact ⟨hnone, node_create h⟩
  · cases h

theorem grown_mkdir (h : fs.mkdir d = .ok fs') : Grown [d] fs fs' := by
  obtain ⟨hnone, hnode⟩ := mkdir_ok h
  intro k
  by_cases hk : k = components d
  · rw [hk]
    exact Or.inr ⟨hnone, by rw [hnode, if_pos rfl], d, List.mem_cons_self, rfl⟩
  · exact Or.inl (by rw [hnode, if_neg hk])

theorem ok_of_answers {α : Type} {result : Except FsError α} {v : Nat}
    (h : answers result (.ok v) = true) : ∃ a, result = .ok a := by
  cases result with
  | ok a => exact ⟨a, rfl⟩
  | error e => cases h

/-- The loop makes none but the directories of its list. -/
theorem grown_createSubdirectories {absfile : Path} (paths : List Path) (fs : Fs) :
    All (mirrorHandler absfile) (createSubdirectories paths) fs fun _ _ fs' =>
      Grown paths fs fs' := by
  induction paths generalizing fs with
  | nil => exact Grown.refl [] fs
  | cons d paths ih =>
    refine all_call_answer rfl fun (r : Except Errno Nat) hallows => ?_
    cases r with
    | error e =>
      change All _ (if e = .eexist then createSubdirectories paths else return e.code) fs _
      split
      · exact (ih fs).mono fun _ _ fs' h => h.cons
      · exact Grown.refl (d :: paths) fs
    | ok v =>
      have hmade : ∃ fs', fs.mkdir d = .ok fs' := ok_of_answers hallows
      obtain ⟨fs', hok⟩ := hmade
      have hnext : (mirrorHandler absfile).next (.backup (.mkdir d)) fs (.ok v) = fs' := by
        change (fs.mkdir d).toOption.getD fs = fs'
        rw [hok]
        rfl
      rw [hnext]
      exact (ih fs').mono fun _ _ fs'' h => (grown_mkdir hok).trans_cons h

/-! ## The directory itself -/

/-- A path that does not end with a slash is not one of its subdirectories. -/
theorem components_ne_of_subdirectory (hlast : path.getLast? ≠ some '/')
    (hd : d ∈ OpenPath.subdirectories path) : components d ≠ components path := by
  obtain ⟨i, hi, rfl⟩ := List.mem_map.mp hd
  obtain ⟨hlt, hslash⟩ := List.mem_filter.mp hi
  have hslash : path[i]? = some '/' := (of_decide_eq_true hslash).2
  obtain ⟨hlt, hget⟩ := List.getElem?_eq_some_iff.mp hslash
  have hpath : path = path.take i ++ '/' :: path.drop (i + 1) := by
    rw [← hget, List.getElem_cons_drop, List.take_append_drop]
  have hrest : path.drop (i + 1) ≠ [] ∧ (path.drop (i + 1)).getLast? ≠ some '/' := by
    constructor
    · intro hnil
      rw [hnil] at hpath
      exact hlast (by rw [hpath, List.getLast?_append]; rfl)
    · intro hend
      apply hlast
      rw [hpath, List.getLast?_append, List.getLast?_cons, hend]
      rfl
  obtain ⟨y, l, hyl, hl, hy⟩ := exists_last (path.drop (i + 1))
  rw [hyl] at hrest
  have hname := isName_last hrest hy hl
  intro heq
  have hlen := congrArg List.length heq
  rw [congrArg components hpath, components_append_slash, hyl, components_last hy hname] at hlen
  simp only [List.length_append, List.length_singleton] at hlen
  omega

/-- After `open_path` without an error the directory is there only if it was there before. -/
theorem made_openPath {absfile : Path} (hlast : path.getLast? ≠ some '/') (fs : Fs) :
    All (mirrorHandler absfile) (openPath path) fs fun _ x fs' => x = .ok 0 →
      (Made fs' path ↔ fs.node (components path) = some .directory) := by
  refine all_call_answer rfl fun (r : Except Errno Nat) hallows => ?_
  change All _ _ fs _
  cases r with
  | ok v =>
    intro _
    constructor
    · exact fun h => h _ (List.prefix_refl _)
    · intro hdir k hk
      obtain ⟨rest, hrest⟩ := hk
      by_cases hnil : rest = []
      · rw [hnil, List.append_nil] at hrest
        rw [hrest]
        exact hdir
      · exact Fs.directory_of_append (by rw [hrest, hdir]; exact Option.some_ne_none _) hnil
  | error e =>
    change All _
      (if e = .enoent then createSubdirectories (OpenPath.subdirectories path) else return -1) fs _
    split
    · rename_i he
      -- the error can only be the one of `stat`
      have hnone : fs.node (components path) = none := by
        cases hv : fs.node (components path) with
        | none => rfl
        | some v =>
          have hstat : fs.stat path = .ok v := by rw [Fs.stat, hv]
          change answers (fs.stat path) (.error e) = true at hallows
          rw [hstat, he] at hallows
          simp [answers] at hallows
      refine (grown_createSubdirectories _ fs).mono fun _ _ fs' hgrown _ => ?_
      rw [hnone]
      refine iff_of_false (fun hmade => ?_) (by simp)
      have hdir := hmade _ (List.prefix_refl _)
      rcases hgrown (components path) with h | ⟨-, -, d, hd, hcomponents⟩
      · rw [h, hnone] at hdir
        cases hdir
      · exact components_ne_of_subdirectory hlast hd hcomponents
    · exact fun h => absurd h (by decide)

/-- The capture of a directory in a source is `open_path` of its translated path. -/
theorem all_captureMkdir {D : DirectorySet} {absfile pathname : Path}
    {Q : List Event → Except Fault Int → Fs → Prop}
    (htranslate : D.translatePrefixOfRealpath absfile = some path)
    (h : All (mirrorHandler absfile) (openPath path) fs Q) :
    All (mirrorHandler absfile) (captureMkdir D pathname) fs Q := by
  have hin := D.prefix_of_translate htranslate
  unfold captureMkdir isPrefix translatePrefix
  rw [bind_assoc]
  refine all_call_reply (r := Except.ok absfile) rfl ?_
  change All (mirrorHandler absfile) (if D.isPrefixOfRealpath absfile = true then _ else _) fs Q
  rw [if_pos hin, bind_assoc]
  refine all_call_reply (r := Except.ok absfile) rfl ?_
  change All (mirrorHandler absfile) (translatePrefixOfRealpath D absfile >>= openPath) fs Q
  rw [translatePrefixOfRealpath, htranslate]
  exact h

end

/-! ## The main result -/

/-- A captured `mkdir` of a directory below a source that makes no error leaves its translated
path and all above it as directories exactly when the path was one before. -/
theorem made_iff {D : DirectorySet} {j : Nat} {source destination directory name pathname : Path}
    (hname : IsName name)
    (hfirst : D.FirstPrefix (entryName directory name) j source destination)
    (hunder : entryName directory name ≠ source) {fs fs' : Fs} {es : List Event}
    (hrun : exec (mirrorHandler (entryName directory name)) (captureMkdir D pathname) fs es =
      some (.ok 0, fs')) :
    Made fs' (destination ++ (entryName directory name).drop source.length) ↔
      fs.node (components (destination ++ (entryName directory name).drop source.length)) =
        some .directory := by
  have htranslate := DirectorySet.translate_of_firstPrefix hfirst
  have hlast : (destination ++ (entryName directory name).drop source.length).getLast? ≠
      some '/' := by
    obtain ⟨rest, hrest⟩ := hfirst.2.1
    have hne : rest ≠ [] := by
      rintro rfl
      exact hunder (by rw [← hrest, List.append_nil])
    have hend : rest.getLast? = name.getLast? := by
      have h := congrArg List.getLast? hrest
      rw [entryName, List.getLast?_append, List.getLast?_append_cons,
        Option.or_of_isSome (by simpa using hne)] at h
      rw [h, List.getLast?_cons_of_ne_nil hname.1]
    rw [← hrest, List.drop_left, List.getLast?_append,
      Option.or_of_isSome (by simpa using hne), hend]
    intro h
    exact hname.2 (List.mem_of_getLast? h)
  have hall : All (mirrorHandler (entryName directory name)) (captureMkdir D pathname) fs
      fun _ x fs' => x = .ok 0 →
        (Made fs' (destination ++ (entryName directory name).drop source.length) ↔
          fs.node (components (destination ++ (entryName directory name).drop source.length)) =
            some .directory) := all_captureMkdir htranslate (made_openPath hlast fs)
  exact all_iff.mp hall es _ fs' hrun rfl

/-- A backup into which nothing has been copied. -/
def emptyBackup : Fs :=
  .ofNodes [⟨[], .directory⟩, ⟨[['b']], .directory⟩].toAList (by decide)

/-- A backup with a copy of the directory `d`. -/
def copiedDirectory : Fs :=
  .ofNodes [⟨[], .directory⟩, ⟨[['b']], .directory⟩, ⟨[['b'], ['d']], .directory⟩].toAList
    (by decide)

/-- The path of `d` in the source. -/
theorem firstPrefix_d : oneDirectory.FirstPrefix (entryName "/s".toList "d".toList) 0
    "/s".toList "/b".toList :=
  ⟨rfl, by decide, fun k hk => absurd hk (Nat.not_lt_zero k)⟩

/-- The copier has made the directory. -/
theorem made_copied : Made copiedDirectory "/b/d".toList :=
  (@made_iff oneDirectory 0 _ _ "/s".toList "d".toList "/s/d".toList (by unfold IsName; decide)
    firstPrefix_d (by decide) copiedDirectory copiedDirectory
    [⟨.backup (.stat "/b/d".toList), .ok 0⟩] rfl).mpr (by decide +kernel)

/-- Nothing is made for a directory that the copier has not come to. -/
theorem not_made_d : ¬ ∀ (D : DirectorySet) (j : Nat)
    (source destination directory name pathname : Path), IsName name →
      D.FirstPrefix (entryName directory name) j source destination →
      entryName directory name ≠ source → ∀ (fs fs' : Fs) (es : List Event),
        exec (mirrorHandler (entryName directory name)) (captureMkdir D pathname) fs es =
          some (.ok 0, fs') →
        Made fs' (destination ++ (entryName directory name).drop source.length) := by
  intro h
  have h := h oneDirectory 0 _ _ _ "d".toList "/s/d".toList (by unfold IsName; decide) firstPrefix_d
    (by decide) emptyBackup emptyBackup
    [⟨.backup (.stat "/b/d".toList), .error .enoent⟩,
      ⟨.backup (.mkdir "/b".toList), .error .eexist⟩] rfl _ (List.prefix_refl _)
  exact absurd h (by decide +kernel)

end TokuBackup.Interpose
