import TokuBackup.DirectorySet
import TokuBackup.OpenPath

/-!
# The backup thread

`do_backup` from the beginning to the end, as the thread that calls it runs: the validation
of the destinations, the preparation of the open files, the copier and the end of the
session. Only what is returned, reported and disabled is followed, so that the contents of
files, byte counts, locks and the file table do not occur. No other thread reports an error
during the call.
-/

namespace TokuBackup.DoBackup

open Kernel Lib Script

/-! ## State -/

/-- The manager and the copier, as far as the backup thread uses them. -/
structure Manager where
  isDead : Bool
  captureEnabled : Bool
  copyEnabled : Bool
  /-- The todo list; the entries that `cleanup` has freed are null pointers. -/
  todo : List (Option Path)
  /-- The calls of the error callback. -/
  reports : List (Int × String)
  /-- `disable_copy` has been called. -/
  copyDisabled : Bool
  /-- The source directories whose copier has found its todo list empty. -/
  emptied : List Path

abbrev BackupM := Script Call.Answer Manager

/-- `report_error` of the callbacks. -/
def reportError (errnum : Int) (text : String) : BackupM Unit :=
  change fun m => { m with reports := m.reports ++ [(errnum, text)] }

/-- `backup_error`, on the thread that has the callbacks. -/
def backupError (errnum : Int) (text : String) : BackupM Unit :=
  change fun m => { m with
    captureEnabled := false
    copyEnabled := false
    copyDisabled := true
    reports := m.reports ++ [(errnum, text)] }

def fatalError (errnum : Int) (text : String) : BackupM Unit :=
  change fun m => { m with
    isDead := true
    captureEnabled := false
    copyEnabled := false
    copyDisabled := true
    reports := m.reports ++ [(errnum, text)] }

/-! ## Calls -/

section

variable (i : Nat) (path : Path)

abbrev poll : BackupM Int := call Call.poll
abbrev trylock : BackupM (Option Errno) := call Call.trylock
abbrev statDestination : BackupM (Except Errno FileKind) := call (Call.statDestination i)
abbrev opendirDestination : BackupM (Option Errno) := call (Call.opendirDestination i)
abbrev readdirDestination : BackupM (Except Errno (Option Path)) := call (Call.readdirDestination i)
abbrev closedirDestination : BackupM (Option Errno) := call (Call.closedirDestination i)
abbrev statBackup : BackupM (Except Errno FileKind) := call (Call.statBackup path)
abbrev mkdirBackup : BackupM (Option Errno) := call (Call.mkdirBackup path)
abbrev createDestination : BackupM Creation := call (Call.createDestination path)
abbrev removeDestination : BackupM Removal := call Call.removeDestination
abbrev statSource : BackupM (Except Errno FileKind) := call (Call.statSource path)
abbrev opendirSource : BackupM (Option Errno) := call (Call.opendirSource path)
abbrev mkdir : BackupM (Option Errno) := call (Call.mkdir path)
abbrev readdirSource : BackupM (Option Path) := call Call.readdirSource
abbrev closedirSource : BackupM (Option Errno) := call Call.closedirSource
abbrev openSource : BackupM (Option Errno) := call (Call.openSource path)
abbrev lstatSource : BackupM Bool := call (Call.lstatSource path)
abbrev closeSource : BackupM (Option Errno) := call Call.closeSource
abbrev clock : BackupM (Option Errno) := call Call.clock
abbrev throttle : BackupM Bool := call Call.throttle
abbrev flags : BackupM Bool := call Call.flags
abbrev reopen : BackupM (Option Errno × Except Errno (Option Errno)) := call (Call.reopen path)
abbrev read : BackupM (Except Errno Nat) := call Call.read
abbrev write : BackupM (Except Errno Nat) := call Call.write
abbrev added : BackupM (List Path) := call Call.added

end

/-! ## The directories -/

/-- `verify_destination_is_empty`. -/
def verifyDestinationIsEmpty (index : Nat) : BackupM Int :=
  loop (fun _ => do
    match ← readdirDestination index with
    | .ok (some name) =>
      if isDot name then return .inr ()
      else
        backupError Errno.einval.code "Backup directory %s is not empty"
        return .inl Errno.einval.code
    | .ok none => return .inl 0
    | .error e =>
      backupError e.code "Problem readdir()ing backup directory %s"
      return .inl e.code) ()

/-- The rounds of the loop of `validate` for the directories from `i` on, with `n` left; `r`
is the result so far. -/
def validateFrom : Nat → Nat → Int → BackupM Int
  | 0, _, r => return r
  | n + 1, i, _ => do
    match ← statDestination i with
    | .error e =>
      backupError e.code "Problem stat()ing backup directory %s"
      return e.code
    | .ok .directory =>
      match ← opendirDestination i with
      | some e =>
        backupError e.code "Problem opening backup directory %s"
        return e.code
      | none =>
        let r ← verifyDestinationIsEmpty i
        match ← closedirDestination i with
        | some e =>
          backupError e.code "Problem closedir()ing backup directory %s"
          return e.code
        | none => validateFrom n (i + 1) r
    | .ok _ =>
      backupError Errno.einval.code "Backup destination %s is not a directory"
      return Errno.einval.code

def validate (D : DirectorySet) : BackupM Int := validateFrom D.dirs.length 0 0

/-- `create_subdirectories`, for the prefixes that are left. -/
def createSubdirectories : List Path → BackupM Int :=
  OpenPath.createSubdirectories (fun directory => mkdirBackup directory) fun answer => answer

/-- `open_path` -/
def openPath (path : Path) : BackupM Int :=
  OpenPath.openPath (fun directory => mkdirBackup directory) (fun answer => answer)
    (fun path => statBackup path) path

/-- `try_to_remove_destination`; the error of `close` is ignored. -/
def tryToRemoveDestination : BackupM Unit := do
  match ← removeDestination with
  | .closed (some e) => backupError e.code "Trying to close a backup file (fd=%d)"
  | _ => return ()

/-- `prepare_directories_for_backup`: the names of the files in the fd map that are left. -/
def prepareDirectoriesForBackup (D : DirectorySet) : List (Option Path) → BackupM Int
  | [] => return 0
  | none :: rest => prepareDirectoriesForBackup D rest
  | some name :: rest =>
    if D.isPrefixOfRealpath name = false then prepareDirectoriesForBackup D rest
    else
      match D.translatePrefixOfRealpath name with
      | none => stuck
      | some file_name => do
        if D.fileIsExcluded file_name then return 0
        else
          let r ← openPath file_name
          if r ≠ 0 then
            backupError r "Failed to open path"
            return r
          else
            match ← createDestination file_name with
            | .opened (some e) =>
              backupError e.code "Could not create backup file."
              return e.code
            | _ => prepareDirectoriesForBackup D rest

/-- `disable_descriptions`, for the descriptions that are left. -/
def disableDescriptions : Nat → BackupM Unit
  | 0 => return ()
  | n + 1 => do
    tryToRemoveDestination
    disableDescriptions n

/-! ## The copier -/

/-- `copy_result` -/
structure CopyResult where
  result : Int
  nWroteNow : Int

/-- The loop of `copy_file_range` that writes the buffer of `n_read` bytes. -/
def writeBuffer (n_read : Nat) : BackupM CopyResult :=
  loop (fun ((n_wrote_this_buf, n_wrote_now) : Nat × Int) => do
    if n_wrote_this_buf < n_read then
      let r ← poll
      if r ≠ 0 then
        reportError r "User aborted backup"
        return .inl ⟨r, n_wrote_now⟩
      else
        match ← write with
        | .error e =>
          reportError e.code "error write to %s, errno=%d (%s) at %s:%d"
          return .inl ⟨e.code, -1⟩
        | .ok n => return .inr (n_wrote_this_buf + n, (n : Int))
    else return .inl ⟨0, n_wrote_now⟩) (0, 0)

def copyFileRange : BackupM CopyResult := do
  match ← read with
  | .ok 0 => return ⟨0, 0⟩
  | .ok n_read => writeBuffer n_read
  | .error e =>
    reportError e.code "Could not read from %s, n_read=%lu errno=%d (%s) fd=%d at %s:%d"
    return ⟨e.code, 0⟩

def openAndLockFileThenCopyRange (src : Path) : BackupM CopyResult := do
  let differ ← flags
  if differ = true then
    let (close, again) ← reopen src
    match close with
    | some e =>
      backupError e.code "Could not close %s at %s:%d"
      reopened again e.code
    | none => reopened again 0
  else copyFileRange
where
  /-- After the `close`; its error is the result only when the file is gone. -/
  reopened (again : Except Errno (Option Errno)) (result : Int) : BackupM CopyResult := do
    match again with
    | .error e =>
      if e = .enoent then return ⟨result, 0⟩
      else
        backupError e.code "Could not open source file: %s"
        return ⟨e.code, 0⟩
    | .ok (some e) =>
      backupError e.code "Could not lseek file: %s"
      return ⟨e.code, 0⟩
    | .ok none => copyFileRange

def possiblySleepOrAbort : BackupM Int :=
  loop (fun _ => do
    let m ← state
    if m.copyEnabled = false then return .inl 0
    else
      match ← clock with
      | some e =>
        reportError e.code "clock_gettime returned an error: errno=%d (%s)"
        return .inl e.code
      | none =>
        let exceeded ← throttle
        if exceeded = true then
          let r ← poll
          if r ≠ 0 then
            reportError r "User aborted backup"
            return .inl r
          else
            let m ← state
            if m.copyEnabled = false then return .inl 0 else return .inr ()
        else return .inl 0) ()

def copyFileData (src : Path) : BackupM Int := do
  match ← clock with
  | some e =>
    reportError e.code "clock_gettime returned an error: errno=%d (%s)"
    return e.code
  | none =>
    loop (fun _ => do
      let m ← state
      if m.copyEnabled = false then return .inl 0
      else
        let result ← openAndLockFileThenCopyRange src
        if result.result ≠ 0 ∨ result.nWroteNow = 0 then return .inl result.result
        else
          let r ← possiblySleepOrAbort
          if r ≠ 0 then return .inl r else return .inr ()) ()

def createDestinationAndCopy (src path : Path) : BackupM Int := do
  let source_exists ← lstatSource src
  if source_exists = true then
    match ← createDestination path with
    | .opened (some e) => return e.code
    | .unlinked =>
      tryToRemoveDestination
      return 0
    | _ =>
      let r ← copyFileData src
      if r ≠ 0 then return r
      else
        tryToRemoveDestination
        return 0
  else
    tryToRemoveDestination
    return 0

/-- `copy_regular_file`; `copy_using_source_info` holds a reference to the source file
meanwhile. -/
def copyRegularFile (src path : Path) : BackupM Int := do
  match ← openSource src with
  | some e =>
    if e = .enoent then return 0
    else
      backupError e.code "Could not open source file: %s"
      return e.code
  | none =>
    let result ← createDestinationAndCopy src path
    match ← closeSource with
    | some e =>
      backupError e.code "Could not close %s at %s:%d"
      return e.code
    | none => return result

def addDirEntriesToTodo (file : Path) : BackupM Int :=
  loop (fun _ => do
    match ← readdirSource with
    | none => return .inl 0
    | some name =>
      let m ← state
      if m.copyEnabled = false then return .inl 0
      else if isDot name then return .inr ()
      else
        change fun m => { m with todo := m.todo ++ [some (file ++ '/' :: name)] }
        return .inr ()) ()

/-- The rest of `copy_full_path` for a directory, whose `opendir` has returned `dir`. -/
def copyDirectory (dir : Option Errno) (dest file : Path) : BackupM Int := do
  match ← mkdir dest with
  | some e =>
    if e = .eexist then entries
    else
      reportError e.code "error mkdir(\"%s\"), errno=%d (%s) at %s:%d"
      match dir with
      | none =>
        let _ ← closedirSource
        return e.code
      | some _ => return e.code
  | none => entries
where
  entries : BackupM Int := do
    match dir with
    -- `readdir` of a null pointer
    | some _ => stuck
    | none =>
      let r ← addDirEntriesToTodo file
      if r ≠ 0 then
        let _ ← closedirSource
        return r
      else
        match ← closedirSource with
        | some e =>
          backupError e.code "Cannot close dir %s during backup at %s:%d\n"
          return e.code
        | none => return 0

def copyFullPath (D : DirectorySet) (source dest file : Path) : BackupM Int := do
  if D.excludeCopy source then return 0
  else
    match ← statSource source with
    | .error e =>
      if e = .enoent then return 0
      else
        reportError e.code "Could not stat(\"%s\"), errno=%d (%s) at %s:%d"
        return e.code
    | .ok .regular => copyRegularFile source dest
    | .ok .directory =>
      let dir ← opendirSource source
      match dir with
      | some e =>
        if e = .enoent then copyDirectory (some e) dest file
        else
          backupError e.code "Could not opendir %s"
          return e.code
      | none => copyDirectory none dest file
    | .ok .other => return 0

def copyStrippedFile (D : DirectorySet) (source dest file : Path) : BackupM Int :=
  if file = ['.'] then copyFullPath D source dest []
  else copyFullPath D (pathcat source file) (pathcat dest file) file

/-- `cleanup` of the copier. -/
def cleanup : BackupM Unit := change fun m => { m with todo := m.todo.map fun _ => none }

/-- A round of the loop of `copier::do_copy`. -/
def doCopyRound (D : DirectorySet) (source dest : Path) (n_known : Nat) :
    BackupM (Int ⊕ Nat) := do
  if n_known = 0 then
    change fun m => { m with emptied := m.emptied ++ [source] }
    return .inl 0
  else
    let m ← state
    if m.copyEnabled = false then return .inl 0
    else
      match m.todo with
      | some fname :: _ =>
        let r ← poll
        if r ≠ 0 then return .inl r
        else
          change fun m => { m with todo := m.todo.tail }
          let r ← copyStrippedFile D source dest fname
          if r ≠ 0 then return .inl r
          else
            let files ← added
            change fun m => { m with todo := m.todo ++ files.map some }
            let m ← state
            return .inr m.todo.length
      | _ => stuck

/-- `copier::do_copy` -/
def doCopy (D : DirectorySet) (source dest : Path) : BackupM Int := do
  change fun m => { m with todo := m.todo ++ [some ['.']] }
  let m ← state
  let r ← loop (doCopyRound D source dest) m.todo.length
  cleanup
  return r

/-- `backup_session::do_copy`, for the directories that are left. -/
def sessionDoCopy (D : DirectorySet) : List (Path × Path) → BackupM Int
  | [] => return 0
  | (source, dest) :: rest => do
    let r ← doCopy D source dest
    if r ≠ 0 then return r else sessionDoCopy D rest

/-! ## The call -/

/-- What `do_backup` finds: the directories and the exclude callback, the names of the open
files when the session starts, and the number of descriptions when it ends. -/
structure Request where
  dirs : DirectorySet
  open_files : List (Option Path)
  descriptions : Nat

/-- The part of `do_backup` up to `disable_out`. -/
def copyPhase (x : Request) : BackupM Int := do
  change fun m => { m with todo := [] }
  let r ← prepareDirectoriesForBackup x.dirs x.open_files
  if r ≠ 0 then return r
  else
    change fun m => { m with captureEnabled := true, copyEnabled := true }
    let r ← sessionDoCopy x.dirs x.dirs.dirs
    if r ≠ 0 then
      backupError r "COPY phase returned an error: %d"
      return r
    else return 0

/-- The rest of `do_backup` when the backup system is not dead. -/
def request (x : Request) : BackupM Int := do
  let r ← poll
  if r ≠ 0 then
    backupError r "User aborted backup"
    return r
  else
    match ← trylock with
    | some e =>
      if e = .ebusy then
        backupError e.code "Another backup is in progress."
        return e.code
      else
        fatalError e.code "mutex_trylock at %s:%d"
        return e.code
    | none =>
      let r ← validate x.dirs
      if r ≠ 0 then return r
      else
        let r ← copyPhase x
        change fun m => { m with captureEnabled := false }
        disableDescriptions x.descriptions
        cleanup
        return r

def doBackup (x : Request) : BackupM Int := do
  let m ← state
  if m.isDead then
    backupError Errno.einval.code "Backup system is dead"
    return Errno.einval.code
  else request x

/-- The result of `do_backup` and the manager after it, for the calls and answers of the
script. -/
def execute (x : Request) (dead : Bool) (script : List Event) : Option (Int × Manager) :=
  match doBackup x (script, ⟨dead, false, false, [], [], false, []⟩) with
  | some (r, [], m) => some (r, m)
  | _ => none

end TokuBackup.DoBackup
