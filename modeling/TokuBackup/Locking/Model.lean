import TokuBackup.DoBackup.Model
import TokuBackup.Interpose.Model
import TokuBackup.Lib.LockOrder
import TokuBackup.Lib.Machine

/-!
# Locks

Any number of application threads run interposed calls, in any order, and one thread runs
`do_backup`, again and again; each takes its locks one at a time and waits for those that
others hold. A reader of a read-write lock waits only for a writer that holds it. All answers
are arbitrary, so that every thread may go any way through its code.

The mutexes of the errors and of the ranges' vectors are left out, since nothing is waited for
under them, and `m_mutex`, which is only tried.
-/

namespace TokuBackup.Locking

open Kernel Table Lib Prog
open DoBackup (Errno FileKind CopyResult)
open Interpose (AppCall Op CallM interposed)

/-! ## Locks -/

inductive HeldLock where
  /-- `m_atomic_file_op_mutex` -/
  | fileOp
  /-- The mutex of the fd's description. -/
  | description (fd : Nat)
  | range (file : Ptr) (r : Range)
  /-- `m_session_rwlock`, by a reader. -/
  | sessionRead
  | sessionWrite
  /-- `get_put_mutex` of the fd map. -/
  | fmap
  /-- The mutex of the file hash table. -/
  | table
  /-- `m_name_rwlock`, by a reader. -/
  | nameRead (file : Ptr)
  | nameWrite (file : Ptr)
  /-- `m_fd_mutex` -/
  | fdMutex (file : Ptr)
  | todo
  deriving DecidableEq

/-- Whether a lock that is held keeps out another one. -/
def HeldLock.blocks : HeldLock → HeldLock → Bool
  | .fileOp, .fileOp => true
  | .description fd, .description fd' => fd == fd'
  | .range file r, .range file' r' => file == file' && rangesIntersect r.lo r.hi r'.lo r'.hi
  | .sessionRead, .sessionWrite => true
  | .sessionWrite, .sessionRead => true
  | .sessionWrite, .sessionWrite => true
  | .fmap, .fmap => true
  | .table, .table => true
  | .nameRead file, .nameWrite file' => file == file'
  | .nameWrite file, .nameRead file' => file == file'
  | .nameWrite file, .nameWrite file' => file == file'
  | .fdMutex file, .fdMutex file' => file == file'
  | .todo, .todo => true
  | _, _ => false

def HeldLock.heldRank : HeldLock → Nat
  | .fileOp => 6
  | .description _ => 5
  | .sessionRead => 5
  | .range _ _ => 4
  | .sessionWrite => 3
  | .fmap => 2
  | .table => 1
  | _ => 0

def HeldLock.wantedRank : HeldLock → Nat
  | .fileOp => 6
  | .description _ => 5
  | .sessionWrite => 5
  | .range _ _ => 4
  | .sessionRead => 3
  | .fmap => 2
  | .table => 1
  | _ => 0

/-- The order of the locks. The session lock stands above the ranges for those that write it
and for those that hold it as readers, and below them for those that want to read it. -/
def order : LockOrder HeldLock where
  blocks held wanted := held.blocks wanted = true
  heldRank := HeldLock.heldRank
  wantedRank := HeldLock.wantedRank
  rank_le held wanted h := by
    revert h
    cases held <;> cases wanted <;>
      simp [HeldLock.blocks, HeldLock.heldRank, HeldLock.wantedRank]

/-! ## The interposed calls -/

def ofLock : Interpose.Lock → HeldLock
  | .fileOp => .fileOp
  | .table => .table
  | .description fd => .description fd
  | .nameRead file => .nameRead file
  | .nameWrite file => .nameWrite file

/-- What an operation of a call does with locks. -/
def lockEvents : Op → List (LockEvent HeldLock)
  | .lock l => [.acquire (ofLock l)]
  | .unlock l => [.release (ofLock l)]
  | .rdlock => [.acquire .sessionRead]
  | .rdunlock => [.release .sessionRead]
  | .mapGet _ => [.acquire .fmap, .release .fmap]
  | .mapPut _ _ => [.acquire .fmap, .release .fmap]
  | .mapErase _ => [.acquire .fmap, .release .fmap]
  | .lockRange file r => [.acquire (.range file r)]
  | .unlockRange file r => [.release (.range file r)]
  | .setFlags file _ => [.acquire (.fdMutex file), .release (.fdMutex file)]
  | .addToTodo _ => [.acquire .todo, .release .todo]
  | _ => []

/-! ## The backup thread

Its operations, as far as the locks depend on them: what takes no lock is one operation. -/

inductive BackupOp where
  | lock (l : HeldLock)
  | unlock (l : HeldLock)
  /-- `unlock_range`; whether the range was locked. -/
  | unlockRange (file : Ptr) (r : Range)
  | isDead
  | poll
  | trylock
  | validate
  | numberOfDirectories
  | mapSize
  /-- The source file of the description in the fd map, if there is one. -/
  | mapped (fd : Nat)
  | isPrefixOfRealpath (file : Ptr)
  | fileIsExcluded (file : Ptr)
  | openPath (file : Ptr)
  | tryToCreateDestinationFile (file : Ptr)
  | tryToRemoveDestination (file : Ptr)
  | copyIsEnabled
  | todoSize
  | todoFront
  | todoPop
  | todoPush (file : Path)
  | excludeCopy (file : Path)
  | stat (file : Path)
  | opendir (file : Path)
  | mkdir (file : Path)
  | readdir (file : Path)
  | closedir (file : Path)
  | getOrCreate (file : Path)
  | tryToRemove (file : Ptr)
  | directIoFlagIsSet (file : Ptr)
  | openSource (file : Ptr)
  | closeSource (file : Ptr)
  | lstat (file : Ptr)
  | hasDestination (file : Ptr)
  | clock
  | totalWritten
  /-- `given_flags_are_different`, and what opening the source again comes to. -/
  | reopen (file : Ptr)
  /-- The calls of `copy_file_range`. -/
  | copyFileRange (file : Ptr)
  | possiblySleepOrAbort
  deriving DecidableEq

def BackupOp.Answer : BackupOp → Type
  | .unlockRange _ _ => Bool
  | .isDead => Bool
  | .poll => Int
  | .trylock => Int
  | .validate => Int
  | .numberOfDirectories => Nat
  | .mapSize => Nat
  | .mapped _ => Option Ptr
  | .isPrefixOfRealpath _ => Bool
  | .fileIsExcluded _ => Bool
  | .openPath _ => Int
  | .tryToCreateDestinationFile _ => Int
  | .copyIsEnabled => Bool
  | .todoSize => Nat
  | .todoFront => Path
  | .excludeCopy _ => Bool
  | .stat _ => Except Errno FileKind
  | .opendir _ => Int
  | .mkdir _ => Int
  | .readdir _ => Option Path
  | .closedir _ => Int
  | .getOrCreate _ => Ptr
  | .directIoFlagIsSet _ => Bool
  | .openSource _ => Except Errno Nat
  | .closeSource _ => Int
  | .lstat _ => Bool
  | .hasDestination _ => Bool
  | .clock => Int
  | .totalWritten => Nat
  | .reopen _ => Option CopyResult
  | .copyFileRange _ => CopyResult
  | .possiblySleepOrAbort => Int
  | _ => Unit

abbrev BackupM := Prog BackupOp.Answer Fault

def backupLockEvents : BackupOp → List (LockEvent HeldLock)
  | .lock l => [.acquire l]
  | .unlock l => [.release l]
  | .unlockRange file r => [.release (.range file r)]
  | _ => []

section

variable (l : HeldLock) (file : Ptr) (path : Path)

abbrev lock : BackupM Unit := call (BackupOp.lock l)
abbrev unlock : BackupM Unit := call (BackupOp.unlock l)
abbrev unlockRange (r : Range) : BackupM Bool := call (BackupOp.unlockRange file r)
abbrev isDead : BackupM Bool := call BackupOp.isDead
abbrev poll : BackupM Int := call BackupOp.poll
abbrev trylock : BackupM Int := call BackupOp.trylock
abbrev validate : BackupM Int := call BackupOp.validate
abbrev numberOfDirectories : BackupM Nat := call BackupOp.numberOfDirectories
abbrev mapSize : BackupM Nat := call BackupOp.mapSize
abbrev mapped (fd : Nat) : BackupM (Option Ptr) := call (BackupOp.mapped fd)
abbrev isPrefixOfRealpath : BackupM Bool := call (BackupOp.isPrefixOfRealpath file)
abbrev fileIsExcluded : BackupM Bool := call (BackupOp.fileIsExcluded file)
abbrev openPath : BackupM Int := call (BackupOp.openPath file)
abbrev tryToCreateDestinationFile : BackupM Int := call (BackupOp.tryToCreateDestinationFile file)
abbrev tryToRemoveDestination : BackupM Unit := call (BackupOp.tryToRemoveDestination file)
abbrev copyIsEnabled : BackupM Bool := call BackupOp.copyIsEnabled
abbrev todoSize : BackupM Nat := call BackupOp.todoSize
abbrev todoFront : BackupM Path := call BackupOp.todoFront
abbrev todoPop : BackupM Unit := call BackupOp.todoPop
abbrev todoPush : BackupM Unit := call (BackupOp.todoPush path)
abbrev excludeCopy : BackupM Bool := call (BackupOp.excludeCopy path)
abbrev stat : BackupM (Except Errno FileKind) := call (BackupOp.stat path)
abbrev opendir : BackupM Int := call (BackupOp.opendir path)
abbrev mkdir : BackupM Int := call (BackupOp.mkdir path)
abbrev readdir : BackupM (Option Path) := call (BackupOp.readdir path)
abbrev closedir : BackupM Int := call (BackupOp.closedir path)
abbrev getOrCreate : BackupM Ptr := call (BackupOp.getOrCreate path)
abbrev tryToRemove : BackupM Unit := call (BackupOp.tryToRemove file)
abbrev directIoFlagIsSet : BackupM Bool := call (BackupOp.directIoFlagIsSet file)
abbrev openSource : BackupM (Except Errno Nat) := call (BackupOp.openSource file)
abbrev closeSource : BackupM Int := call (BackupOp.closeSource file)
abbrev lstat : BackupM Bool := call (BackupOp.lstat file)
abbrev hasDestination : BackupM Bool := call (BackupOp.hasDestination file)
abbrev clock : BackupM Int := call BackupOp.clock
abbrev totalWritten : BackupM Nat := call BackupOp.totalWritten
abbrev reopen : BackupM (Option CopyResult) := call (BackupOp.reopen file)
abbrev copyFileRange : BackupM CopyResult := call (BackupOp.copyFileRange file)
abbrev possiblySleepOrAbort : BackupM Int := call BackupOp.possiblySleepOrAbort

end

/-- The loop of `prepare_directories_for_backup`, with `n` descriptions left from `i` on. -/
def prepareFrom : Nat → Nat → BackupM Int
  | 0, _ => return 0
  | n + 1, i => do
    match ← mapped i with
    | none => prepareFrom n (i + 1)
    | some source =>
      lock .table
      lock (.nameRead source)
      if ← isPrefixOfRealpath source then
        if ← fileIsExcluded source then
          unlock (.nameRead source)
          unlock .table
          return 0
        else
          let r ← openPath source
          if r ≠ 0 then
            unlock (.nameRead source)
            unlock .table
            return r
          else
            let r ← tryToCreateDestinationFile source
            unlock (.nameRead source)
            unlock .table
            if r ≠ 0 then return r else prepareFrom n (i + 1)
      else
        unlock (.nameRead source)
        unlock .table
        prepareFrom n (i + 1)

def prepareDirectoriesForBackup : BackupM Int := do
  lock .fmap
  let size ← mapSize
  let r ← prepareFrom size 0
  unlock .fmap
  return r

/-- The loop of `disable_descriptions`. -/
def disableFrom : Nat → Nat → BackupM Unit
  | 0, _ => return ()
  | n + 1, i => do
    match ← mapped i with
    | none => disableFrom n (i + 1)
    | some source =>
      tryToRemoveDestination source
      disableFrom n (i + 1)

def disableDescriptions : BackupM Unit := do
  lock .fmap
  let size ← mapSize
  disableFrom size 0
  unlock .fmap

def openAndLockFileThenCopyRange (file : Ptr) : BackupM CopyResult := do
  lock (.fdMutex file)
  match ← reopen file with
  | some result =>
    unlock (.fdMutex file)
    return result
  | none =>
    let result ← copyFileRange file
    unlock (.fdMutex file)
    return result

/-- The loop of `copy_file_data`, with at most `n` rounds. -/
def copyRanges (file : Ptr) : Nat → BackupM Int
  | 0 => return 0
  | n + 1 => do
    if ← copyIsEnabled then
      let lock_start ← totalWritten
      let range : Range := ⟨lock_start, lock_start + 1024 * 1024⟩
      lock (.range file range)
      let result ← openAndLockFileThenCopyRange file
      if ← unlockRange file range then
        if result.result ≠ 0 ∨ result.nWroteNow = 0 then return result.result
        else
          let r ← possiblySleepOrAbort
          if r ≠ 0 then return r else copyRanges file n
      else return 22
    else return 0

def copyFileData (rounds : Nat) (file : Ptr) : BackupM Int := do
  let r ← clock
  if r ≠ 0 then return r else copyRanges file rounds

/-- A step that is left out unless the flag is set. -/
def orZero (flag : Bool) (body : BackupM Int) : BackupM Int := if flag then body else return 0

def createDestinationAndCopy (rounds : Nat) (file : Ptr) : BackupM Int := do
  lock .table
  lock (.nameWrite file)
  let found ← lstat file
  let result ← orZero found (tryToCreateDestinationFile file)
  let dest ← hasDestination file
  unlock (.nameWrite file)
  unlock .table
  if result ≠ 0 then return result
  else
    let r ← orZero (found && dest) (copyFileData rounds file)
    if r ≠ 0 then return r
    else
      lock .table
      tryToRemoveDestination file
      unlock .table
      return 0

def copyRegularFile (rounds : Nat) (file : Ptr) : BackupM Int := do
  lock (.fdMutex file)
  let _ ← directIoFlagIsSet file
  unlock (.fdMutex file)
  match ← openSource file with
  | .error e => return if e = .enoent then 0 else e.code
  | .ok _ =>
    let result ← createDestinationAndCopy rounds file
    let r ← closeSource file
    return if r ≠ 0 then r else result

def copyUsingSourceInfo (rounds : Nat) (path : Path) : BackupM Int := do
  lock .table
  let file ← getOrCreate path
  unlock .table
  let result ← copyRegularFile rounds file
  lock .table
  tryToRemove file
  unlock .table
  return result

/-- The loop of `add_dir_entries_to_todo`, with at most `n` rounds. -/
def addEntries (path : Path) : Nat → BackupM Unit
  | 0 => return ()
  | n + 1 => do
    match ← readdir path with
    | none => return ()
    | some name =>
      if ← copyIsEnabled then
        todoPush name
        addEntries path n
      else return ()

def addDirEntriesToTodo (rounds : Nat) (path : Path) : BackupM Unit := do
  lock .todo
  addEntries path rounds
  unlock .todo

/-- `copy_full_path` -/
def copyFullPath (rounds : Nat) (path : Path) : BackupM Int := do
  if ← excludeCopy path then return 0
  else
    match ← stat path with
    | .error e => return if e = .enoent then 0 else e.code
    | .ok .regular => copyUsingSourceInfo rounds path
    | .ok .directory =>
      let r ← opendir path
      -- with `ENOENT` there is no handle, and it goes on with a null pointer
      if r ≠ 0 ∧ r ≠ Errno.enoent.code then return r
      else
        let r ← mkdir path
        if r ≠ 0 then return r
        else
          addDirEntriesToTodo rounds path
          closedir path
    | .ok .other => return 0

/-- The loop of `copier::do_copy`, with at most `n` rounds. -/
def copyFiles (rounds : Nat) : Nat → BackupM Int
  | 0 => return 0
  | n + 1 => do
    if ← copyIsEnabled then
      lock .todo
      let fname ← todoFront
      unlock .todo
      let r ← poll
      if r ≠ 0 then return r
      else
        lock .todo
        todoPop
        unlock .todo
        let r ← copyFullPath rounds fname
        if r ≠ 0 then return r
        else
          lock .todo
          let n_known ← todoSize
          unlock .todo
          if n_known = 0 then return 0 else copyFiles rounds n
    else return 0

/-- `copier::cleanup`, which empties the todo list. -/
def cleanup : BackupM Unit := do
  lock .todo
  todoPop
  unlock .todo

/-- `copier::do_copy` -/
def copierDoCopy (rounds : Nat) : BackupM Int := do
  lock .todo
  todoPush ['.']
  unlock .todo
  let r ← copyFiles rounds rounds
  cleanup
  return r

/-- `backup_session::do_copy`, for the directories that are left. -/
def sessionDoCopy (rounds : Nat) : Nat → BackupM Int
  | 0 => return 0
  | n + 1 => do
    let r ← copierDoCopy rounds
    if r ≠ 0 then return r else sessionDoCopy rounds n

/-- The end of the session. -/
def endSession : BackupM Unit := do
  lock .sessionWrite
  disableDescriptions
  cleanup
  unlock .sessionWrite

/-- `do_backup`, in which no loop of the copier has more than `rounds` rounds. -/
def doBackup (rounds : Nat) : BackupM Int := do
  if ← isDead then return 22
  else
    let r ← poll
    if r ≠ 0 then return r
    else
      let r ← trylock
      if r ≠ 0 then return r
      else
        let r ← validate
        if r ≠ 0 then return r
        else
          lock .sessionWrite
          -- a new session, whose copier has an empty todo list
          cleanup
          let r ← prepareDirectoriesForBackup
          unlock .sessionWrite
          if r ≠ 0 then
            endSession
            return r
          else
            let count ← numberOfDirectories
            let r ← sessionDoCopy rounds count
            endSession
            return r

end TokuBackup.Locking
