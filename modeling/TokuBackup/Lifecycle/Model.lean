import TokuBackup.DirectorySet
import TokuBackup.Lib.Machine
import TokuBackup.Table.FileHashTable

/-!
# The life of source files and destinations

The machine of all tracked files: application threads that open, close, unlink and rename
files and make data calls on fds, and the backup thread with its sessions, whose start
prepares the open files, whose copier passes over files one after the other, and whose end
disables the descriptions. Each lock-protected section and each system call is one step,
and any party may take the next one.

Regular files only, without symbolic and hard links, so `realpath` of an absolute path is
the path itself when it names a file. The system calls on the backup's side may fail, and
the action says which do. `open` with `O_CREAT`, `unlink` and `rename` hold
`m_atomic_file_op_mutex` from beginning to end, so that at most one of them is in flight.
-/

namespace TokuBackup.Lifecycle

open Kernel Table

/-! ## State -/

abbrev Inode := Nat

/-- Where an fd stands between the real `open` and the real `close`, with the source file
it is attached to. -/
inductive FdStage where
  /-- The real `open` has returned. -/
  | opened
  /-- `get_or_create_locked` has returned the source file. -/
  | attached (source : Ptr)
  /-- `m_map.put` has run. -/
  | published (source : Ptr)
  /-- The interposed `open` has returned. -/
  | usable (source : Ptr)
  /-- The interposed `close` has fetched the description. -/
  | closing (source : Ptr)
  /-- The section of `close` that tries to remove the destination has run. -/
  | unhooked (source : Ptr)
  /-- `m_map.erase` has run. -/
  | erased (source : Ptr)
  /-- `try_to_remove_locked` has run; the real `close` is left. -/
  | released
  deriving DecidableEq

/-- The source file that the fd holds a reference to. -/
def FdStage.source : FdStage → Option Ptr
  | .opened => none
  | .attached p => some p
  | .published p => some p
  | .usable p => some p
  | .closing p => some p
  | .unhooked p => some p
  | .erased p => some p
  | .released => none

/-- The source file of the fd's description in the fd map. -/
def FdStage.mapped : FdStage → Option Ptr
  | .published p => some p
  | .usable p => some p
  | .closing p => some p
  | .unhooked p => some p
  | _ => none

/-- An fd: the path it was opened by and the file it refers to. -/
structure Fd where
  path : Path
  inode : Inode
  stage : FdStage

/-- The operation that holds `m_atomic_file_op_mutex`. -/
inductive FileOp where
  | free
  /-- `open` with `O_CREAT`. -/
  | creating (fd : Nat)
  /-- `unlink` after `realpath`. -/
  | unlinking (path : Path)
  /-- `unlink` after the real `unlink`. -/
  | unlinked (path : Path)
  /-- `unlink` after `get_or_create_locked`. -/
  | unlinkHeld (path : Path) (source : Ptr)
  /-- `rename` after `realpath` of the old path. -/
  | renaming (old_path new_path : Path)
  /-- `rename` after the real `rename`. -/
  | renamed (old_path new_path : Path)
  deriving DecidableEq

/-- `unlock_file_op` at the end of an `open`, if it took the mutex. -/
def FileOp.unlock (op : FileOp) (fd : Nat) : FileOp := if op = .creating fd then .free else op

/-- A thread in `write`, `pwrite` or `ftruncate`. -/
inductive Thread where
  | idle
  /-- The call has fetched the description's source file. -/
  | called (fd : Nat) (source : Ptr)
  /-- `get_destination` has returned, inside the session. -/
  | fetched (fd : Nat) (source : Ptr) (dest : Option Nat)
  deriving DecidableEq

/-- The copier's pass over one file. -/
inductive CopierPc where
  /-- `get_or_create_locked` has returned. -/
  | attached
  /-- The source is open. -/
  | opened
  /-- In `copy_file_data`, with the destination that `get_destination` returned. -/
  | copying (dest : Nat)
  /-- The section that tries to remove the destination is next. -/
  | copied
  /-- `try_to_remove_locked` is next. -/
  | closed
  deriving DecidableEq

structure Copier where
  src : Path
  dst : Path
  file : Ptr
  pc : CopierPc

/-- The backup thread. -/
inductive Backup where
  | idle
  /-- In `prepare_directories_for_backup`, at index `i` of the fd map. -/
  | preparing (i : Nat)
  /-- The session is active, the copier is between two files. -/
  | running
  | copying (c : Copier)
  /-- Before the session's end. -/
  | stopping
  /-- In `disable_descriptions`, at index `i` of the fd map. -/
  | disabling (i : Nat)

/-- The session lock is held for writing and the fd map is locked. -/
def Backup.exclusive : Backup → Bool
  | .preparing _ => true
  | .disabling _ => true
  | _ => false

structure State where
  /-- The files of the source, by path. -/
  names : Path → Option Inode
  freshInode : Inode
  files : Files
  fds : Nat → Option Fd
  /-- `m_map.size()`. -/
  mapSize : Nat
  session : Option DirectorySet
  captureEnabled : Bool
  backup : Backup
  fileOp : FileOp
  threads : List Thread
  fault : Option Fault

/-- The source file of the description that the fd map holds for `fd`. -/
def State.mapped (s : State) (fd : Nat) : Option Ptr := (s.fds fd).bind fun d => d.stage.mapped

/-- `backup_error`, when there is an error, disables capture. -/
def State.backupError (s : State) (error : Bool) : State :=
  { s with captureEnabled := s.captureEnabled && !error }

/-- Go on with the result of a section, or stop with its fault. -/
def State.attempt {α : Type} (s : State) (x : Except Fault α) (k : α → State) : State :=
  match x with
  | .ok a => k a
  | .error e => { s with fault := some e }

/-- Move fd `fd`, whose entry is `d`, to another stage. -/
def State.moveFd (s : State) (fd : Nat) (d : Fd) (stage : FdStage) : State :=
  { s with fds := Function.update s.fds fd (some { d with stage }) }

/-- The `id` of the file's destination. -/
def State.destination (s : State) (file : Ptr) : Option Nat :=
  ((s.files.heap file).bind SourceFile.destinationFile).map DestinationFile.id

/-! ## Sections

What the locked sections do to the files; where they report an error, the result says so. -/

section

variable (hash : Path → Nat)

/-- The section of `manager::open` inside the session: `capture_open`, then
`try_to_create_destination_file`. The path may not exist any more, and then nothing is
captured. -/
def captureOpen (s : State) (D : DirectorySet) (path : Path) (source : Ptr)
    (opened created : Bool) :
    Except Fault (Files × Bool) := do
  if s.names path = none then return (s.files, false)
  if ¬ D.isPrefixOfRealpath path then return (s.files, false)
  let backup_file_name ← Lib.demand (D.translatePrefixOfRealpath path) .pointer
  if D.fileIsExcluded backup_file_name then return (s.files, false)
  if ¬ opened then return (s.files, false)
  let (ok, files) ← s.files.tryToCreateDestinationFile source backup_file_name created
  return (files, !ok)

/-- How an iteration of the loop of `prepare_directories_for_backup` ends. -/
inductive PrepareResult where
  | next
  /-- An excluded file ends the loop, without an error. -/
  | out
  | failed
  deriving DecidableEq

/-- One iteration of `prepare_directories_for_backup`. -/
def prepare (s : State) (D : DirectorySet) (source : Ptr) (opened created : Bool) :
    Except Fault (Files × PrepareResult) := do
  let name ← Lib.demand (s.files.name source) .pointer
  if ¬ D.isPrefixOfRealpath name then return (s.files, .next)
  let file_name ← Lib.demand (D.translatePrefixOfRealpath name) .pointer
  if D.fileIsExcluded file_name then return (s.files, .out)
  if ¬ opened then return (s.files, .failed)
  let (ok, files) ← s.files.tryToCreateDestinationFile source file_name created
  return (files, if ok then .next else .failed)

/-- `should_capture_unlink_of_file`, with the session. -/
def State.shouldCaptureUnlink (s : State) (file : Path) : Option DirectorySet :=
  match s.session with
  | some D =>
    if s.captureEnabled ∧ D.isPrefixOfRealpath file ∧ ¬ D.fileIsExcluded file then some D else none
  | none => none

/-- The captured part of `unlink`: make sure that there is a destination to unlink. The
first result is `false` when none can be created. -/
def captureUnlink (F : Files) (D : DirectorySet) (path : Path) (source : Ptr) (created : Bool) :
    Except Fault (Bool × Files) := do
  let f ← Lib.demand (F.heap source) .pointer
  if f.destinationFile.isSome then return (true, F)
  let dest_path ← Lib.demand (D.translatePrefixOfRealpath path) .pointer
  let (ok, F) ← F.tryToCreateDestinationFile source dest_path created
  if ¬ ok then return (false, F)
  let f ← Lib.demand (F.heap source) .pointer
  let _ ← Lib.demand f.destinationFile .pointer
  return (true, F)

/-- The rest of the section: the source file is marked, and the reference given back. -/
def finishUnlink (F : Files) (source : Ptr) : Except Fault Files := do
  let _ ← Lib.demand (F.heap source) .pointer
  let F := F.modify source fun f => { f with unlinked := true }
  let F ← F.tryToRemoveDestination source
  F.tryToRemove hash source

/-- The locked section of `manager::unlink`. When the destination cannot be created, the
reference is not given back. -/
def unlinkSection (s : State) (path : Path) (source : Ptr) (created unlinked : Bool) :
    Except Fault (Files × Bool) := do
  match s.shouldCaptureUnlink path with
  | some D =>
    let (ok, F) ← captureUnlink s.files D path source created
    if ok then
      let F ← finishUnlink hash F source
      return (F, !unlinked)
    else
      return (F, false)
  | none =>
    let F ← finishUnlink hash s.files source
    return (F, false)

/-- `capture_rename`; only a rename within the source directories is captured. -/
def captureRename (F : Files) (D : DirectorySet) (full_old_path full_new_path : Path)
    (o : RenameOutcome) : Except Fault (Files × Bool) := do
  if o.realpath = none then return (F, false)
  if D.isPrefixOfRealpath full_old_path ∧ D.isPrefixOfRealpath full_new_path then
    let old_dest ← Lib.demand (D.translatePrefixOfRealpath full_old_path) .pointer
    let new_dest ← Lib.demand (D.translatePrefixOfRealpath full_new_path) .pointer
    let (ok, F) ← F.renameLocked hash full_old_path old_dest new_dest o
    return (F, !ok)
  else
    return (F, false)

/-- The locked section of `create_destination_and_copy`, and where the copier is after
it. -/
def createDestination (s : State) (c : Copier) (created : Bool) :
    Except Fault (Files × CopierPc) := do
  if s.names c.src = none then return (s.files, .copied)
  let (ok, F) ← s.files.tryToCreateDestinationFile c.file c.dst created
  if ¬ ok then return (F, .closed)
  let f ← Lib.demand (F.heap c.file) .pointer
  return (F, match f.destinationFile with
    | some d => .copying d.id
    | none => .copied)

/-! ## Steps -/

inductive Action where
  /-- The real `open` of `path` returns `fd`. -/
  | openReal (fd : Nat) (path : Path) (create : Bool)
  | openAttach (fd : Nat)
  | openPublish (fd : Nat)
  /-- The rest of `open`; `open_path` and the creation of the backup file succeed or not. -/
  | openCapture (fd : Nat) (opened created : Bool)
  | closeBegin (fd : Nat)
  | closeUnhook (fd : Nat)
  | closeErase (fd : Nat)
  | closeRelease (fd : Nat)
  | closeReal (fd : Nat)
  | unlinkStart (path : Path)
  | unlinkReal (ok : Bool)
  | unlinkHold
  /-- Creating the destination, and unlinking it, succeed or not. -/
  | unlinkFinish (created unlinked : Bool)
  | renameStart (old_path new_path : Path)
  | renameReal (ok : Bool)
  | renameCapture (created renamed enoent : Bool)
  /-- Thread `t` makes a data call on `fd`. -/
  | call (t fd : Nat)
  | fetch (t : Nat)
  | use (t : Nat)
  | startSession (D : DirectorySet)
  | prepareNext (opened created : Bool)
  /-- The copier turns to the entry `file` of directory `i`. -/
  | copierStart (i : Nat) (file : Path)
  | copierOpen (ok : Bool)
  | copierCreate (created : Bool)
  /-- A use of the destination in `copy_file_data`. -/
  | copierUse
  | copierDone (ok : Bool)
  | copierUnhook
  | copierRelease
  /-- The copier is done with the last directory, or gives up. -/
  | stopCopy
  | endSession
  | disableNext
  /-- An error is reported by some thread. -/
  | error

/-- The steps of `open`. -/
def stepOpen (s : State) : Action → Option State
  | .openReal fd path create =>
    if (s.fds fd).isSome then none
    else if create then
      if s.fileOp = .free then
        match s.names path with
        | some i =>
          some { s with
            fds := Function.update s.fds fd (some ⟨path, i, .opened⟩)
            fileOp := .creating fd }
        | none =>
          some { s with
            names := Function.update s.names path (some s.freshInode)
            freshInode := s.freshInode + 1
            fds := Function.update s.fds fd (some ⟨path, s.freshInode, .opened⟩)
            fileOp := .creating fd }
      else none
    else
      (s.names path).map fun i =>
        { s with fds := Function.update s.fds fd (some ⟨path, i, .opened⟩) }
  | .openAttach fd =>
    match s.fds fd with
    | some d =>
      if d.stage = .opened then
        -- when `realpath` fails the fd stays untracked
        if s.names d.path = none then
          some { s.backupError true with
            fds := Function.update s.fds fd none
            fileOp := s.fileOp.unlock fd }
        else
          some (s.attempt (s.files.getOrCreate hash d.path) fun (source, files) =>
            ({ s with files }).moveFd fd d (.attached source))
      else none
    | none => none
  | .openPublish fd =>
    match s.fds fd with
    | some d =>
      match d.stage with
      | .attached source =>
        if s.backup.exclusive then none
        else some ({ s with mapSize := max s.mapSize (fd + 1) }.moveFd fd d (.published source))
      | _ => none
    | none => none
  | .openCapture fd opened created =>
    match s.fds fd with
    | some d =>
      match d.stage with
      | .published source =>
        if s.backup.exclusive then none
        else
          let captured := match s.session with
            | some D => captureOpen s D d.path source opened created
            | none => .ok (s.files, false)
          some (s.attempt captured fun (files, error) =>
            ({ s.backupError error with
              files
              fileOp := s.fileOp.unlock fd }).moveFd fd d (.usable source))
      | _ => none
    | none => none
  | _ => none

/-- The steps of `close`. -/
def stepClose (s : State) : Action → Option State
  | .closeBegin fd =>
    match s.fds fd with
    | some d =>
      match d.stage with
      | .usable source =>
        if s.backup.exclusive then none else some (s.moveFd fd d (.closing source))
      | _ => none
    | none => none
  | .closeUnhook fd =>
    match s.fds fd with
    | some d =>
      match d.stage with
      | .closing source =>
        if s.backup.exclusive then none
        else if s.session.isSome then
          some (s.attempt (s.files.tryToRemoveDestination source) fun files =>
            ({ s with files }).moveFd fd d (.unhooked source))
        else some (s.moveFd fd d (.unhooked source))
      | _ => none
    | none => none
  | .closeErase fd =>
    match s.fds fd with
    | some d =>
      match d.stage with
      | .unhooked source =>
        if s.backup.exclusive then none else some (s.moveFd fd d (.erased source))
      | _ => none
    | none => none
  | .closeRelease fd =>
    match s.fds fd with
    | some d =>
      match d.stage with
      | .erased source =>
        some (s.attempt (s.files.tryToRemove hash source) fun files =>
          ({ s with files }).moveFd fd d .released)
      | _ => none
    | none => none
  | .closeReal fd =>
    match s.fds fd with
    | some d =>
      if d.stage = .released then some { s with fds := Function.update s.fds fd none } else none
    | none => none
  | _ => none

/-- The steps of `unlink` and `rename`. -/
def stepFileOp (s : State) : Action → Option State
  | .unlinkStart path =>
    if s.fileOp = .free ∧ s.names path ≠ none then some
      { s with fileOp := .unlinking path } else none
  | .unlinkReal ok =>
    match s.fileOp with
    | .unlinking path =>
      if ok then
        some { s with names := Function.update s.names path none, fileOp := .unlinked path }
      else some { s with fileOp := .free }
    | _ => none
  | .unlinkHold =>
    match s.fileOp with
    | .unlinked path =>
      some (s.attempt (s.files.getOrCreate hash path) fun (source, files) =>
        { s with files, fileOp := .unlinkHeld path source })
    | _ => none
  | .unlinkFinish created unlinked =>
    match s.fileOp with
    | .unlinkHeld path source =>
      if s.backup.exclusive then none
      else
        some (s.attempt (unlinkSection hash s path source created unlinked) fun (files, error) =>
          { s.backupError error with files, fileOp := .free })
    | _ => none
  | .renameStart old_path new_path =>
    if s.fileOp = .free ∧ s.names old_path ≠ none then
      some { s with fileOp := .renaming old_path new_path }
    else none
  | .renameReal ok =>
    match s.fileOp with
    | .renaming old_path new_path =>
      if ok then
        some { s with
          names :=
            Function.update (Function.update s.names old_path none) new_path (s.names old_path)
          fileOp := .renamed old_path new_path }
      else some { s with fileOp := .free }
    | _ => none
  | .renameCapture created renamed enoent =>
    match s.fileOp with
    | .renamed old_path new_path =>
      if s.backup.exclusive then none
      else
        match s.session with
        | some D =>
          let o :=
            ⟨created, if s.names new_path = none then none else some new_path, renamed, enoent⟩
          some (s.attempt (captureRename hash s.files D old_path new_path o) fun (files, error) =>
            { s.backupError error with files, fileOp := .free })
        | none => some { s with fileOp := .free }
    | _ => none
  | _ => none

/-- The steps of a data call, as far as the destination is concerned. -/
def stepThread (s : State) : Action → Option State
  | .call t fd =>
    match s.threads[t]?, s.fds fd with
    | some .idle, some d =>
      match d.stage with
      | .usable source =>
        if s.backup.exclusive then none
        else some { s with threads := s.threads.set t (.called fd source) }
      | _ => none
    | _, _ => none
  | .fetch t =>
    match s.threads[t]? with
    | some (.called fd source) =>
      if s.backup.exclusive then none
      else if s.session.isSome then
        some (s.attempt (Lib.demand (s.files.heap source) Fault.pointer) fun _ =>
          { s with threads := s.threads.set t (.fetched fd source (s.destination source)) })
      else some { s with threads := s.threads.set t .idle }
    | _ => none
  | .use t =>
    match s.threads[t]? with
    | some (.fetched _ source (some dest)) =>
      if s.destination source = some dest then some { s with threads := s.threads.set t .idle }
      else some { s with fault := some .pointer }
    | some (.fetched _ _ none) => some { s with threads := s.threads.set t .idle }
    | _ => none
  | _ => none

/-- No thread is inside the session. -/
def State.noReader (s : State) : Bool :=
  s.threads.all fun
    | .fetched _ _ _ => false
    | _ => true

/-- The copier's pass over a file. -/
def stepCopier (s : State) (c : Copier) : Action → Option State
  | .copierOpen ok =>
    if c.pc = .attached then
      -- a source that does not exist any more is skipped
      if s.names c.src ≠ none ∧ ok then some { s with backup := .copying { c with pc := .opened } }
      else some { s with backup := .copying { c with pc := .closed } }
    else none
  | .copierCreate created =>
    if c.pc = .opened then
      some (s.attempt (createDestination s c created) fun (files, pc) =>
        { s with files, backup := .copying { c with pc } })
    else none
  | .copierUse =>
    match c.pc with
    | .copying dest =>
      if s.destination c.file = some dest then some s else some { s with fault := some .pointer }
    | _ => none
  | .copierDone ok =>
    match c.pc with
    | .copying _ =>
      some { s with backup := .copying { c with pc := if ok then .copied else .closed } }
    | _ => none
  | .copierUnhook =>
    if c.pc = .copied then
      some (s.attempt (s.files.tryToRemoveDestination c.file) fun files =>
        { s with files, backup := .copying { c with pc := .closed } })
    else none
  | .copierRelease =>
    if c.pc = .closed then
      some (s.attempt (s.files.tryToRemove hash c.file) fun files =>
        { s with files, backup := .running })
    else none
  | _ => none

/-- The steps of `do_backup`. -/
def stepBackup (s : State) : Action → Option State
  | .startSession D =>
    match s.backup with
    | .idle =>
      if s.noReader then some { s with session := some D, backup := .preparing 0 } else none
    | _ => none
  | .prepareNext opened created =>
    match s.backup, s.session with
    | .preparing i, some D =>
      if i < s.mapSize then
        match s.mapped i with
        | some source =>
          some (s.attempt (prepare s D source opened created) fun (files, result) =>
            match result with
            | .next => { s with files, backup := .preparing (i + 1) }
            | .out => { s with files, captureEnabled := true, backup := .running }
            | .failed => { s.backupError true with files, backup := .stopping })
        | none => some { s with backup := .preparing (i + 1) }
      else some { s with captureEnabled := true, backup := .running }
    | _, _ => none
  | .copierStart i file =>
    match s.backup, s.session with
    | .running, some D =>
      match D.dirs[i]? with
      | some (source, destination) =>
        let src := pathcat source file
        some (s.attempt (s.files.getOrCreate hash src) fun (p, files) =>
          { s with files, backup := .copying ⟨src, pathcat destination file, p, .attached⟩ })
      | none => none
    | _, _ => none
  | .stopCopy =>
    match s.backup with
    | .running => some { s with backup := .stopping }
    | _ => none
  | .endSession =>
    match s.backup with
    | .stopping =>
      if s.noReader then some { s with captureEnabled := false, backup := .disabling 0 } else none
    | _ => none
  | .disableNext =>
    match s.backup with
    | .disabling i =>
      if i < s.mapSize then
        match s.mapped i with
        | some source =>
          some (s.attempt (s.files.tryToRemoveDestination source) fun files =>
            { s with files, backup := .disabling (i + 1) })
        | none => some { s with backup := .disabling (i + 1) }
      else some { s with session := none, backup := .idle }
    | _ => none
  | .error => some (s.backupError true)
  | a =>
    match s.backup with
    | .copying c => stepCopier hash s c a
    | _ => none

/-- The copier's actions in `stepBackup`. -/
def copierStep (s : State) (a : Action) : Option State :=
  match s.backup with
  | .copying c => stepCopier hash s c a
  | _ => none

def step (s : State) (a : Action) : Option State :=
  if s.fault.isSome then none
  else
    match a with
    | .openReal _ _ _ | .openAttach _ | .openPublish _ | .openCapture _ _ _ => stepOpen hash s a
    | .closeBegin _ | .closeUnhook _ | .closeErase _ | .closeRelease _ | .closeReal _ =>
      stepClose hash s a
    | .unlinkStart _ | .unlinkReal _ | .unlinkHold | .unlinkFinish _ _ | .renameStart _ _
    | .renameReal _ | .renameCapture _ _ _ => stepFileOp hash s a
    | .call _ _ | .fetch _ | .use _ => stepThread s a
    | _ => stepBackup hash s a

end

theorem copierStep_some {hash : Path → Nat} {s s' : State} {a : Action}
    (h : copierStep hash s a = some s') :
    ∃ c, s.backup = .copying c ∧ stepCopier hash s c a = some s' := by
  unfold copierStep at h
  split at h
  · rename_i c hc
    exact ⟨c, hc, h⟩
  · cases h

/-- Nothing is tracked, no session is active and nothing is in flight; the source may have
any files. -/
structure Initial (s : State) : Prop where
  names : ∀ p q i, s.names p = some i → s.names q = some i → p = q
  fresh : ∀ p i, s.names p = some i → i < s.freshInode
  files : s.files = Files.new
  fds : ∀ fd, s.fds fd = none
  session : s.session = none
  backup : s.backup = .idle
  fileOp : s.fileOp = .free
  threads : ∀ th ∈ s.threads, th = .idle
  fault : s.fault = none

/-- No operation is in flight. -/
structure Quiet (s : State) : Prop where
  fds : ∀ fd d, s.fds fd = some d → ∃ p, d.stage = .usable p
  threads : ∀ th ∈ s.threads, th = .idle
  fileOp : s.fileOp = .free
  copier : ∀ c, s.backup ≠ .copying c
  fault : s.fault = none

end TokuBackup.Lifecycle
