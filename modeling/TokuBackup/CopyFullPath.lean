import TokuBackup.BackupThread.Model
import TokuBackup.HotCopy.Model
import TokuBackup.Locking.Model
import TokuBackup.Moves.Model
import TokuBackup.Progress.Model

/-!
# One `copy_full_path`

Each model of the copier has its own `copy_full_path`, which keeps what its results are about:
the calls and their errors, the locks, the bytes, a rename that comes in between, the bytes that
are counted. Which of its branches the function takes is the same everywhere: `turn` says it
once, by what `exclude_copy` and `stat` answer, and every model takes the branch that `turn`
says. So the walks over one tree put the same entries on the todo list.
-/

namespace TokuBackup.CopyFullPath

open Kernel
open DoBackup (Errno FileKind)

/-! ## The branch -/

inductive Turn where
  /-- The entry is excluded, has gone, or is neither a file nor a directory: 0 is returned. -/
  | leave
  | failed (e : Errno)
  | regular
  | directory

/-- The branch that `copy_full_path` takes. -/
def turn (excluded : Bool) (kind : Except Errno FileKind) : Turn :=
  if excluded then .leave
  else
    match kind with
    | .error e => if e = .enoent then .leave else .failed e
    | .ok .regular => .regular
    | .ok .directory => .directory
    | .ok .other => .leave

/-! ## The models with the calls -/

section

variable (rounds : Nat) (D : DirectorySet) (source dest file : Path)

/-- The backup thread with its resources. -/
theorem backupThread_turn :
    BackupThread.copyFullPath rounds source dest file = (do
      let excluded ← BackupThread.excludeCopy source
      if excluded then return 0
      else
        let kind ← BackupThread.stat source
        match turn excluded kind with
        | .leave => return 0
        | .failed e =>
          BackupThread.reportError e.code "Could not stat(\"%s\"), errno=%d (%s) at %s:%d"
          return e.code
        | .regular => BackupThread.copyUsingSourceInfo rounds source dest
        | .directory =>
          match ← BackupThread.opendir source with
          | .error e =>
            if e = .enoent then BackupThread.copyDirectory rounds none dest file
            else
              BackupThread.backupError e.code "Could not opendir %s"
              return e.code
          | .ok dir => BackupThread.copyDirectory rounds (some dir) dest file) := by
  rw [BackupThread.copyFullPath]
  refine congrArg (bind _) (funext fun excluded => ?_)
  cases excluded with
  | true => rfl
  | false =>
    refine congrArg (bind _) (funext fun kind => ?_)
    rcases kind with e | kind
    · by_cases he : e = .enoent
      · simp [turn, he]
      · simp [turn, he]
    · cases kind with
      | regular => rfl
      | other => rfl
      | directory =>
        refine congrArg (bind _) (funext fun dir => ?_)
        cases dir with
        | error e => rfl
        | ok dir => rfl

/-- The locks. -/
theorem locking_turn :
    Locking.copyFullPath rounds source = (do
      let excluded ← Locking.excludeCopy source
      if excluded then return 0
      else
        let kind ← Locking.stat source
        match turn excluded kind with
        | .leave => return 0
        | .failed e => return e.code
        | .regular => Locking.copyUsingSourceInfo rounds source
        | .directory =>
          let r ← Locking.opendir source
          if r ≠ 0 ∧ r ≠ Errno.enoent.code then return r
          else
            let r ← Locking.mkdir source
            if r ≠ 0 then return r
            else
              Locking.addDirEntriesToTodo rounds source
              Locking.closedir source) := by
  rw [Locking.copyFullPath]
  refine congrArg (bind _) (funext fun excluded => ?_)
  cases excluded with
  | true => rfl
  | false =>
    refine congrArg (bind _) (funext fun kind => ?_)
    rcases kind with e | kind
    · by_cases he : e = .enoent
      · simp [turn, he]
      · simp [turn, he]
    · cases kind with
      | regular => rfl
      | other => rfl
      | directory => rfl

/-- The result of `do_backup`. -/
theorem doBackup_turn (hincluded : D.excludeCopy source = false) :
    DoBackup.copyFullPath D source dest file = (do
      let kind ← DoBackup.statSource source
      match turn (D.excludeCopy source) kind with
      | .leave => return 0
      | .failed e =>
        DoBackup.reportError e.code "Could not stat(\"%s\"), errno=%d (%s) at %s:%d"
        return e.code
      | .regular => DoBackup.copyRegularFile source dest
      | .directory =>
        match ← DoBackup.opendirSource source with
        | some e =>
          if e = .enoent then DoBackup.copyDirectory (some e) dest file
          else
            DoBackup.backupError e.code "Could not opendir %s"
            return e.code
        | none => DoBackup.copyDirectory none dest file) := by
  rw [DoBackup.copyFullPath, hincluded]
  refine congrArg (bind _) (funext fun kind => ?_)
  rcases kind with e | kind
  · by_cases he : e = .enoent
    · simp [turn, he]
    · simp [turn, he]
  · cases kind with
    | regular => rfl
    | other => rfl
    | directory =>
      refine congrArg (bind _) (funext fun dir => ?_)
      cases dir with
      | some e => rfl
      | none => rfl

end

/-! ## The models on a tree -/

theorem errno_ne (e : FsError) : e.errno ≠ 0 := by
  cases e <;> decide

def errnoOf (e : FsError) : Errno := ⟨e.errno, errno_ne e⟩

/-- What `stat` says of a node. -/
def kindOf : Except FsError Node → Except Errno FileKind
  | .error e => .error (errnoOf e)
  | .ok .directory => .ok .directory
  | .ok (.regular _) => .ok .regular

section

variable (D : DirectorySet) (fs : Fs) (source dest file : Path) (entries : List Path)

/-- The copier with the bytes. -/
theorem copier_turn (s : Copier.State) :
    Copier.copyFullPath D s source dest file entries =
      match turn (D.excludeCopy source) (kindOf (s.fs.stat source)) with
      | .leave => some { s with pc := .loop }
      | .failed e => some { s with pc := .returned e.code }
      | .regular => some (Copier.copyUsingSourceInfo s source dest)
      | .directory =>
        if Copier.IsListing s.fs (components source) entries then
          match s.fs.mkdir dest with
          | .ok fs => some { s with
              fs := fs, todo := s.todo ++ Copier.dirEntries file entries, pc := .loop }
          | .error .eexist => some { s with
              todo := s.todo ++ Copier.dirEntries file entries, pc := .loop }
          | .error e => some { s with pc := .returned e.errno }
        else none := by
  unfold Copier.copyFullPath turn
  cases D.excludeCopy source with
  | true => rfl
  | false =>
    cases s.fs.stat source with
    | error e => cases e <;> rfl
    | ok node =>
      cases node with
      | regular content => rfl
      | directory => rfl

/-- The copier under the calls of the application. -/
theorem hotCopy_turn (s : HotCopy.State) :
    HotCopy.copyFullPath D fs s source dest file entries =
      match turn (D.excludeCopy source) (kindOf (fs.stat source)) with
      | .leave => some { s with pc := .loop }
      | .failed e => some { s with pc := .returned e.code }
      | .regular => some { s with
          placed := Function.update s.placed (components dest) (some (components source))
          pc := .copying (components source) }
      | .directory =>
        if Copier.IsListing fs (components source) entries then
          some { s with
            made := s.made ++ [dest]
            todo := s.todo ++ Copier.dirEntries file entries
            pc := .loop }
        else none := by
  unfold HotCopy.copyFullPath turn
  cases D.excludeCopy source with
  | true => rfl
  | false =>
    cases fs.stat source with
    | error e => cases e <;> rfl
    | ok node =>
      cases node with
      | regular content => rfl
      | directory => rfl

/-- The copier and a rename; a path is its components there. -/
theorem moves_turn (s : Moves.State) {rel : List Path} (hrel : ∀ n ∈ rel, IsEntry n) :
    Moves.copyFullPath D s source dest rel =
      match turn (D.excludeCopy (Copier.entryPath source rel))
        (kindOf (s.fs.stat (Copier.entryPath source rel))) with
      | .leave => { s with pc := .loop }
      | .failed e => { s with pc := .returned e.code }
      | .regular => { s with pc := .found rel }
      | .directory =>
        match s.mkdir (components dest ++ rel) with
        | .ok s' => { s' with pc := .scanning rel (s.fs.names (components source ++ rel)) }
        | .error e => { s with pc := .returned e.errno } := by
  unfold Moves.copyFullPath turn
  rw [Fs.stat, Copier.components_entryPath source hrel]
  cases D.excludeCopy (Copier.entryPath source rel) with
  | true => rfl
  | false =>
    cases s.fs.node (components source ++ rel) with
    | none => cases s.fs.absence (components source ++ rel) <;> rfl
    | some node =>
      cases node with
      | regular content => rfl
      | directory => rfl

end

/-! ## What comes on the todo list -/

/-- What the branch puts on the todo list. -/
def added (file : Path) (entries : List Path) : Turn → List Path
  | .directory => Copier.dirEntries file entries
  | _ => []

/-- What `stat` says of a tree of `Progress`. -/
def treeKind : Option Progress.Tree → Except Errno FileKind
  | none => .error .enoent
  | some (.regular _) => .ok .regular
  | some .other => .ok .other
  | some (.directory _) => .ok .directory

section

variable {D : DirectorySet} {fs : Fs} {source dest file : Path} {entries : List Path}

/-- Copying a file leaves the todo list alone. -/
theorem copyUsingSourceInfo_todo (s : Copier.State) :
    (Copier.copyUsingSourceInfo s source dest).todo = s.todo := by
  have hget : ∀ s : Copier.State, (s.getOrCreate source).todo = s.todo := by
    intro s
    rw [Copier.State.getOrCreate]
    split <;> rfl
  have hremove : ∀ s : Copier.State, (s.tryToRemove source).todo = s.todo := by
    intro s
    rw [Copier.State.tryToRemove]
    split
    · split <;> rfl
    · rfl
  have hunhook : ∀ s : Copier.State, (s.tryToRemoveDestination source).todo = s.todo := by
    intro s
    rw [Copier.State.tryToRemoveDestination]
    split
    · split <;> rfl
    · rfl
  have hcreate : ∀ s s' : Copier.State,
      s.tryToCreateDestinationFile source dest = .ok s' → s'.todo = s.todo := by
    intro s s' h
    rw [Copier.State.tryToCreateDestinationFile] at h
    split at h
    · split at h
      · cases h
        rfl
      · split at h
        · cases h
          rfl
        · split at h
          · cases h
            rfl
          · cases h
    · cases h
      rfl
  rw [Copier.copyUsingSourceInfo]
  split
  · exact (hremove _).trans (hget s)
  · rename_i s' hs'
    have hsame : s'.todo = s.todo := (hcreate _ _ hs').trans (hget s)
    split
    · exact ((hremove _).trans (hunhook _)).trans hsame
    · exact hsame

theorem copier_added {s s' : Copier.State}
    (h : Copier.copyFullPath D s source dest file entries = some s')
    (hgoes : ∀ r, s'.pc ≠ .returned r) :
    s'.todo =
      s.todo ++ added file entries (turn (D.excludeCopy source) (kindOf (s.fs.stat source))) := by
  rw [copier_turn] at h
  cases hturn : turn (D.excludeCopy source) (kindOf (s.fs.stat source)) with
  | leave =>
    rw [hturn] at h
    cases h
    exact (List.append_nil _).symm
  | failed e =>
    rw [hturn] at h
    cases h
    exact absurd rfl (hgoes e.code)
  | regular =>
    rw [hturn] at h
    cases h
    exact (copyUsingSourceInfo_todo s).trans (List.append_nil _).symm
  | directory =>
    rw [hturn] at h
    obtain ⟨-, h⟩ := Option.ite_none_right_eq_some.mp h
    split at h
    · cases h
      rfl
    · cases h
      rfl
    · cases h
      exact absurd rfl (hgoes _)

theorem hotCopy_added {s s' : HotCopy.State}
    (h : HotCopy.copyFullPath D fs s source dest file entries = some s') :
    s'.todo =
      s.todo ++ added file entries (turn (D.excludeCopy source) (kindOf (fs.stat source))) := by
  rw [hotCopy_turn] at h
  cases hturn : turn (D.excludeCopy source) (kindOf (fs.stat source)) with
  | directory =>
    rw [hturn] at h
    obtain ⟨-, h⟩ := Option.ite_none_right_eq_some.mp h
    cases h
    rfl
  | _ =>
    rw [hturn] at h
    cases h
    exact (List.append_nil _).symm

theorem progress_added {T : Progress.Tree} {s s' : Progress.State}
    (h : Progress.copyFullPath D s T source file entries = some s') :
    s'.todo =
      s.todo ++ added file entries
        (turn (D.excludeCopy source) (treeKind (T.find (components file)))) := by
  unfold Progress.copyFullPath at h
  unfold turn
  cases hex : D.excludeCopy source with
  | true =>
    rw [hex] at h
    cases h
    exact (List.append_nil _).symm
  | false =>
    rw [hex] at h
    cases hfind : T.find (components file) with
    | none =>
      rw [hfind] at h
      cases h
      exact (List.append_nil _).symm
    | some t =>
      rw [hfind] at h
      cases t with
      | directory listed =>
        obtain ⟨-, h⟩ := Option.ite_none_right_eq_some.mp h
        cases h
        rfl
      | _ =>
        cases h
        exact (List.append_nil _).symm

/-- Where the trees agree, the three walks go on with the same todo list, unless the copier with
the bytes ends with an error. -/
theorem walks_agree {T : Progress.Tree} {c c' : Copier.State} {s s' : HotCopy.State}
    {p p' : Progress.State} (hstat : c.fs.stat source = fs.stat source)
    (htree : treeKind (T.find (components file)) = kindOf (fs.stat source))
    (htodo : c.todo = s.todo) (htodo' : p.todo = s.todo)
    (hc : Copier.copyFullPath D c source dest file entries = some c')
    (hgoes : ∀ r, c'.pc ≠ .returned r)
    (hs : HotCopy.copyFullPath D fs s source dest file entries = some s')
    (hp : Progress.copyFullPath D p T source file entries = some p') :
    c'.todo = s'.todo ∧ p'.todo = s'.todo := by
  have hadded := hotCopy_added hs
  constructor
  · rw [hadded, copier_added hc hgoes, hstat, htodo]
  · rw [hadded, progress_added hp, htree, htodo']

end

end TokuBackup.CopyFullPath
