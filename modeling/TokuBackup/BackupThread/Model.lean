import TokuBackup.DoBackup.Model
import TokuBackup.Lib.Prog

/-!
# The resources of the backup thread

`do_backup` and the copier again, with what they hold: the locks, the directory handles, the
fds of the sources and the references to source files. The calls of the poll callback are in
their four places. What `do_backup` does before and after the copying, apart from its locks and
its result, is one operation each.

The loops of the source have no bound; here each of them is cut off after `rounds` rounds, as a
run that has not ended yet. The error callback is taken to be a function: the code calls it
without looking, though `backup.h` lets it be a null pointer. The reads of a pointer that are
made without a lock are not operations.
-/

namespace TokuBackup.BackupThread

open Kernel Lib Prog
open DoBackup (Errno FileKind CopyResult isDot)

/-! ## Operations -/

/-- The ranges and the fd lock are those of the source file that is copied. -/
inductive Lock where
  /-- `m_mutex` -/
  | mutex
  | session
  | todo
  | table
  | name
  | fd
  | range (start stop : Nat)
  deriving DecidableEq

inductive Op where
  | poll
  | lock (l : Lock)
  | unlock (l : Lock)
  /-- `unlock_range`, which looks for the range. -/
  | unlockRange (start stop : Nat)
  | isDead
  | trylock
  | validate
  /-- Making the session, enabling capture and copy, and ending the session. -/
  | createSession
  | prepareDirectories
  | enable
  | endSession
  /-- The first error that has been recorded. -/
  | recordedError
  /-- `backup_error`, which disables capture and copy. -/
  | backupError (errnum : Int) (text : String)
  | fatalError (errnum : Int) (text : String)
  /-- `report_error`, which does not. -/
  | reportError (errnum : Int) (text : String)
  | copyIsEnabled
  | todoPush (file : Path)
  | todoSize
  /-- The first entry; `cleanup` leaves null pointers. -/
  | todoFront
  | todoPop
  | todoCleanup
  | excludeCopy (source : Path)
  | stat (source : Path)
  | opendir (source : Path)
  | mkdir (dest : Path)
  /-- The calls on a directory handle; `none` is a null pointer. -/
  | readdir (dir : Option Nat)
  | closedir (dir : Option Nat)
  | getOrCreateLocked (source : Path)
  | tryToRemoveLocked
  | directIo
  | openSource (source : Path) (direct : Bool)
  | close (fd : Nat)
  | lseek (fd offset : Nat)
  | read (fd : Nat)
  | lstat (source : Path)
  | tryToCreateDestinationFile (dest : Path)
  | hasDestination
  | tryToRemoveDestination
  | write (nbyte : Nat)
  | clock
  /-- Whether the throttle asks for a pause. -/
  | throttle
  | usleep
  deriving DecidableEq

def Op.Answer : Op → Type
  | .poll => Int
  | .unlockRange _ _ => Option Errno
  | .isDead => Bool
  | .trylock => Option Errno
  | .validate => Int
  | .prepareDirectories => Int
  | .recordedError => Option Int
  | .copyIsEnabled => Bool
  | .todoSize => Nat
  | .todoFront => Option Path
  | .excludeCopy _ => Bool
  | .stat _ => Except Errno FileKind
  | .opendir _ => Except Errno Nat
  | .mkdir _ => Option Errno
  | .readdir _ => Option Path
  | .closedir _ => Option Errno
  | .directIo => Bool
  | .openSource _ _ => Except Errno Nat
  | .close _ => Option Errno
  | .lseek _ _ => Option Errno
  | .read _ => Except Errno Nat
  | .lstat _ => Bool
  | .tryToCreateDestinationFile _ => Option Errno
  | .hasDestination => Bool
  | .tryToRemoveDestination => Option Errno
  | .write _ => Except Errno Nat
  | .clock => Option Errno
  | .throttle => Bool
  | _ => Unit

abbrev Event := Sigma Op.Answer

/-- Why a run has no result. -/
inductive Stop where
  /-- A null entry of the todo list is used. -/
  | nullEntry
  /-- The rounds are used up. -/
  | unfinished
  deriving DecidableEq

abbrev BackupM := Prog Op.Answer Stop

section

variable (l : Lock) (start stop : Nat) (errnum : Int) (text : String) (path : Path)
  (dir : Option Nat) (fd : Nat)

abbrev poll : BackupM Int := call Op.poll
abbrev lock : BackupM Unit := call (Op.lock l)
abbrev unlock : BackupM Unit := call (Op.unlock l)
abbrev unlockRange : BackupM (Option Errno) := call (Op.unlockRange start stop)
abbrev isDead : BackupM Bool := call Op.isDead
abbrev trylock : BackupM (Option Errno) := call Op.trylock
abbrev validate : BackupM Int := call Op.validate
abbrev createSession : BackupM Unit := call Op.createSession
abbrev prepareDirectories : BackupM Int := call Op.prepareDirectories
abbrev enable : BackupM Unit := call Op.enable
abbrev endSession : BackupM Unit := call Op.endSession
abbrev recordedError : BackupM (Option Int) := call Op.recordedError
abbrev backupError : BackupM Unit := call (Op.backupError errnum text)
abbrev fatalError : BackupM Unit := call (Op.fatalError errnum text)
abbrev reportError : BackupM Unit := call (Op.reportError errnum text)
abbrev copyIsEnabled : BackupM Bool := call Op.copyIsEnabled
abbrev todoPush : BackupM Unit := call (Op.todoPush path)
abbrev todoSize : BackupM Nat := call Op.todoSize
abbrev todoFront : BackupM (Option Path) := call Op.todoFront
abbrev todoPop : BackupM Unit := call Op.todoPop
abbrev todoCleanup : BackupM Unit := call Op.todoCleanup
abbrev excludeCopy : BackupM Bool := call (Op.excludeCopy path)
abbrev stat : BackupM (Except Errno FileKind) := call (Op.stat path)
abbrev opendir : BackupM (Except Errno Nat) := call (Op.opendir path)
abbrev mkdir : BackupM (Option Errno) := call (Op.mkdir path)
abbrev readdir : BackupM (Option Path) := call (Op.readdir dir)
abbrev closedir : BackupM (Option Errno) := call (Op.closedir dir)
abbrev getOrCreateLocked : BackupM Unit := call (Op.getOrCreateLocked path)
abbrev tryToRemoveLocked : BackupM Unit := call Op.tryToRemoveLocked
abbrev directIo : BackupM Bool := call Op.directIo
abbrev openSource (direct : Bool) : BackupM (Except Errno Nat) := call (Op.openSource path direct)
abbrev close : BackupM (Option Errno) := call (Op.close fd)
abbrev lseek (offset : Nat) : BackupM (Option Errno) := call (Op.lseek fd offset)
abbrev read : BackupM (Except Errno Nat) := call (Op.read fd)
abbrev lstat : BackupM Bool := call (Op.lstat path)
abbrev tryToCreateDestinationFile : BackupM (Option Errno) :=
  call (Op.tryToCreateDestinationFile path)
abbrev hasDestination : BackupM Bool := call Op.hasDestination
abbrev tryToRemoveDestination : BackupM (Option Errno) := call Op.tryToRemoveDestination
abbrev write (nbyte : Nat) : BackupM (Except Errno Nat) := call (Op.write nbyte)
abbrev clock : BackupM (Option Errno) := call Op.clock
abbrev throttle : BackupM Bool := call Op.throttle
abbrev usleep : BackupM Unit := call Op.usleep

end

/-! ## Copying a file -/

/-- `source_info`; of its flags, whether `O_DIRECT` is set. -/
structure SourceInfo where
  path : Path
  fd : Nat
  direct : Bool

/-- What `copy_file_range` returns, with `m_total_written_this_file` after it. -/
structure RangeResult extends CopyResult where
  total : Nat

/-- The loop of `copy_file_range` that writes the buffer of `n_read` bytes. -/
def writeBuffer (n_read : Nat) : Nat → Nat → Int → Nat → BackupM RangeResult
  | 0, _, _, _ => fail .unfinished
  | rounds + 1, n_wrote_this_buf, n_wrote_now, total =>
    if n_wrote_this_buf < n_read then do
      let r ← poll
      if r ≠ 0 then
        reportError r "User aborted backup"
        return ⟨⟨r, n_wrote_now⟩, total⟩
      else
        match ← write (n_read - n_wrote_this_buf) with
        | .error e =>
          reportError e.code "error write to %s, errno=%d (%s) at %s:%d"
          return ⟨⟨e.code, -1⟩, total⟩
        | .ok n => writeBuffer n_read rounds (n_wrote_this_buf + n) n (total + n)
    else return ⟨⟨0, n_wrote_now⟩, total⟩

def copyFileRange (rounds : Nat) (src_info : SourceInfo) (total : Nat) : BackupM RangeResult := do
  match ← read src_info.fd with
  | .ok n_read => if n_read = 0 then return ⟨⟨0, 0⟩, total⟩ else writeBuffer n_read rounds 0 0 total
  | .error e =>
    reportError e.code "Could not read from %s, n_read=%lu errno=%d (%s) fd=%d at %s:%d"
    return ⟨⟨e.code, 0⟩, total⟩

/-- The rest of `open_and_lock_file_then_copy_range` after closing the source, when its mode has
changed; `result` is the error of `close`. -/
def openAgain (rounds : Nat) (src_info : SourceInfo) (total : Nat) (result : Int) :
    BackupM RangeResult := do
  let direct ← directIo
  match ← openSource src_info.path direct with
  | .error e =>
    if e = .enoent then return ⟨⟨result, 0⟩, total⟩
    else
      backupError e.code "Could not open source file: %s"
      return ⟨⟨e.code, 0⟩, total⟩
  | .ok fd =>
    match ← lseek fd total with
    | some e =>
      backupError e.code "Could not lseek file: %s"
      return ⟨⟨e.code, 0⟩, total⟩
    | none => copyFileRange rounds { src_info with fd } total

/-- `given_flags_are_different` compares with the flags in `src_info`. -/
def openAndLockFileThenCopyRange (rounds : Nat) (src_info : SourceInfo) (total : Nat) :
    BackupM RangeResult := do
  lock .fd
  let direct ← directIo
  if direct ≠ src_info.direct then
    match ← close src_info.fd with
    | some e =>
      backupError e.code "Could not close %s at %s:%d"
      let result ← openAgain rounds src_info total e.code
      unlock .fd
      return result
    | none =>
      let result ← openAgain rounds src_info total 0
      unlock .fd
      return result
  else
    let result ← copyFileRange rounds src_info total
    unlock .fd
    return result

/-- The loop of `possibly_sleep_or_abort`. -/
def possiblySleepOrAbort : Nat → BackupM Int
  | 0 => fail .unfinished
  | rounds + 1 => do
    if ← copyIsEnabled then
      match ← clock with
      | some e =>
        reportError e.code "clock_gettime returned an error: errno=%d (%s)"
        return e.code
      | none =>
        if ← throttle then
          let r ← poll
          if r ≠ 0 then
            reportError r "User aborted backup"
            return r
          else
            usleep
            if ← copyIsEnabled then possiblySleepOrAbort rounds else return 0
        else return 0
    else return 0

/-- The loop of `copy_file_data`. -/
def copyRanges (rounds : Nat) (src_info : SourceInfo) : Nat → Nat → BackupM Int
  | 0, _ => fail .unfinished
  | n + 1, total => do
    if ← copyIsEnabled then
      lock (.range total (total + 1024 * 1024))
      let result ← openAndLockFileThenCopyRange rounds src_info total
      match ← unlockRange total (total + 1024 * 1024) with
      | some e => return e.code
      | none =>
        if result.result ≠ 0 ∨ result.nWroteNow = 0 then return result.result
        else
          let r ← possiblySleepOrAbort rounds
          if r ≠ 0 then return r else copyRanges rounds src_info n result.total
    else return 0

def copyFileData (rounds : Nat) (src_info : SourceInfo) : BackupM Int := do
  match ← clock with
  | some e =>
    reportError e.code "clock_gettime returned an error: errno=%d (%s)"
    return e.code
  | none => copyRanges rounds src_info rounds 0

/-- `try_to_remove_destination`; an error of its `close` is reported and forgotten. -/
def removeDestination : BackupM Unit := do
  match ← tryToRemoveDestination with
  | some e => backupError e.code "Trying to close a backup file (fd=%d)"
  | none => return ()

/-- A step that is made only with the flag; otherwise it has the result `a`. -/
def onlyWith {α : Type} (flag : Bool) (a : α) (body : BackupM α) : BackupM α :=
  if flag then body else return a

/-- The locked part of `create_destination_and_copy`: the error of the creation, and
`source_exists`. -/
def createDestination (src dest : Path) : BackupM (Option Errno × Bool) := do
  lock .table
  lock .name
  let found ← lstat src
  let result ← onlyWith found none (tryToCreateDestinationFile dest)
  let dest ← hasDestination
  unlock .name
  unlock .table
  return (result, found && dest)

def createDestinationAndCopy (rounds : Nat) (src_info : SourceInfo) (dest : Path) :
    BackupM Int := do
  let (error, source_exists) ← createDestination src_info.path dest
  match error with
  | some e => return e.code
  | none =>
    let r ← onlyWith source_exists 0 (copyFileData rounds src_info)
    if r ≠ 0 then return r
    else
      lock .table
      removeDestination
      unlock .table
      return 0

def copyRegularFile (rounds : Nat) (src dest : Path) : BackupM Int := do
  lock .fd
  let direct ← directIo
  unlock .fd
  match ← openSource src direct with
  | .error e =>
    if e = .enoent then return 0
    else
      backupError e.code "Could not open source file: %s"
      return e.code
  | .ok fd =>
    let result ← createDestinationAndCopy rounds ⟨src, fd, direct⟩ dest
    match ← close fd with
    | some e =>
      backupError e.code "Could not close %s at %s:%d"
      return e.code
    | none => return result

def copyUsingSourceInfo (rounds : Nat) (src dest : Path) : BackupM Int := do
  getOrCreateLocked src
  let result ← copyRegularFile rounds src dest
  tryToRemoveLocked
  return result

/-! ## Copying a directory -/

/-- The loop of `add_dir_entries_to_todo`. -/
def addEntries (dir : Option Nat) (file : Path) : Nat → BackupM Int
  | 0 => fail .unfinished
  | rounds + 1 => do
    match ← readdir dir with
    | none => return 0
    | some name =>
      if ← copyIsEnabled then
        if isDot name then addEntries dir file rounds
        else
          todoPush (file ++ '/' :: name)
          addEntries dir file rounds
      else return 0

def addDirEntriesToTodo (rounds : Nat) (dir : Option Nat) (file : Path) : BackupM Int := do
  lock .todo
  let error ← addEntries dir file rounds
  unlock .todo
  return error

/-- The rest of `copy_full_path` for a directory, after `opendir`. -/
def copyDirectory (rounds : Nat) (dir : Option Nat) (dest file : Path) : BackupM Int := do
  match ← mkdir dest with
  | some e => if e = .eexist then entries else failed e
  | none => entries
where
  failed (e : Errno) : BackupM Int := do
    reportError e.code "error mkdir(\"%s\"), errno=%d (%s) at %s:%d"
    let _ ← closedir dir
    return e.code
  entries : BackupM Int := do
    let r ← addDirEntriesToTodo rounds dir file
    if r ≠ 0 then
      let _ ← closedir dir
      return r
    else
      match ← closedir dir with
      | some e =>
        backupError e.code "Cannot close dir %s during backup at %s:%d\n"
        return e.code
      | none => return 0

def copyFullPath (rounds : Nat) (source dest file : Path) : BackupM Int := do
  if ← excludeCopy source then return 0
  else
    match ← stat source with
    | .error e =>
      if e = .enoent then return 0
      else
        reportError e.code "Could not stat(\"%s\"), errno=%d (%s) at %s:%d"
        return e.code
    | .ok .regular => copyUsingSourceInfo rounds source dest
    | .ok .directory =>
      match ← opendir source with
      | .error e =>
        -- the directory is meant to be skipped, but `r` is not looked at
        if e = .enoent then copyDirectory rounds none dest file
        else
          backupError e.code "Could not opendir %s"
          return e.code
      | .ok dir => copyDirectory rounds (some dir) dest file
    | .ok .other => return 0

def copyStrippedFile (rounds : Nat) (source dest file : Path) : BackupM Int :=
  if file = ['.'] then copyFullPath rounds source dest []
  else copyFullPath rounds (pathcat source file) (pathcat dest file) file

/-! ## The backup -/

/-- The loop of `copier::do_copy`. -/
def copyFiles (rounds : Nat) (source dest : Path) : Nat → Nat → BackupM Int
  | 0, _ => fail .unfinished
  | n + 1, n_known =>
    if n_known = 0 then return 0
    else do
      if ← copyIsEnabled then
        lock .todo
        let fname ← todoFront
        unlock .todo
        match fname with
        | none => fail .nullEntry
        | some fname =>
          let r ← poll
          if r ≠ 0 then return r
          else
            lock .todo
            todoPop
            unlock .todo
            let r ← copyStrippedFile rounds source dest fname
            if r ≠ 0 then return r
            else
              lock .todo
              let n_known ← todoSize
              unlock .todo
              copyFiles rounds source dest n n_known
      else return 0

/-- `copier::do_copy` -/
def doCopy (rounds : Nat) (source dest : Path) : BackupM Int := do
  lock .todo
  todoPush ['.']
  let n_known ← todoSize
  unlock .todo
  let r ← copyFiles rounds source dest rounds n_known
  lock .todo
  todoCleanup
  unlock .todo
  return r

/-- `backup_session::do_copy`, for the directories that are left. -/
def sessionDoCopy (rounds : Nat) : List (Path × Path) → BackupM Int
  | [] => return 0
  | (source, dest) :: rest => do
    let r ← doCopy rounds source dest
    if r ≠ 0 then return r else sessionDoCopy rounds rest

/-- The part of `do_backup` between `disable_out` and `unlock_out`. -/
def disable : BackupM Unit := do
  lock .session
  endSession
  unlock .session

/-- The part of `do_backup` with `m_mutex`. -/
def backUp (rounds : Nat) (D : DirectorySet) : BackupM Int := do
  let r ← validate
  if r ≠ 0 then return r
  else
    lock .session
    lock .todo
    createSession
    unlock .todo
    let r ← prepareDirectories
    if r ≠ 0 then
      unlock .session
      disable
      return r
    else
      enable
      unlock .session
      let r ← sessionDoCopy rounds D.dirs
      if r ≠ 0 then
        backupError r "COPY phase returned an error: %d"
        disable
        return r
      else
        disable
        return 0

def doBackup (rounds : Nat) (D : DirectorySet) : BackupM Int := do
  if ← isDead then
    backupError Errno.einval.code "Backup system is dead"
    return Errno.einval.code
  else
    let r ← poll
    if r ≠ 0 then
      backupError r "User aborted backup"
      return r
    else
      match ← trylock with
      | some e =>
        if e = .ebusy then
          backupError e.code "Another backup is in progress."
          return e.code
        else
          fatalError e.code "mutex_trylock at %s:%d"
          return e.code
      | none =>
        let r ← backUp rounds D
        unlock .mutex
        match ← recordedError with
        | some errnum =>
          reportError errnum "%s"
          return if r = 0 then errnum else r
        | none => return r

end TokuBackup.BackupThread
