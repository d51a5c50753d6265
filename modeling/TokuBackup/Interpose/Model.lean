import TokuBackup.Interpose.Calls
import TokuBackup.OpenPath

/-!
# The interposed calls

The public API that the application's calls go to, and the methods of the manager behind it,
as programs of single operations. A `source_file`'s `m_destination_file` has its fd as `id`.
The fault of a call is what ends the process in it: the use of a null pointer, or a `check`
that fails.
-/

namespace TokuBackup.Interpose

open Kernel Table Lib
open DoBackup (Errno)
open Prog

/-! ## Operations -/

section

variable (c : BackupCall) (site : Site) (path : Path) (fd : Nat) (file : Ptr)

abbrev real (c : AppCall) : CallM (Except Errno Int) := call (Op.real c)
abbrev realpath : CallM (Except Errno Path) := call (Op.realpath site path)
abbrev fstat : CallM (Except Errno FdKind) := call (Op.fstat fd)
abbrev backup : CallM (Except Errno Nat) := call (Op.backup c)
abbrev errno : CallM Int := call Op.errno
abbrev setErrno (e : Int) : CallM Unit := call (Op.setErrno e)
abbrev lock (l : Lock) : CallM Unit := call (Op.lock l)
abbrev unlock (l : Lock) : CallM Unit := call (Op.unlock l)
abbrev rdlock : CallM Unit := call Op.rdlock
abbrev rdunlock : CallM Unit := call Op.rdunlock
abbrev isAlive : CallM Bool := call Op.isAlive
abbrev session : CallM (Option DirectorySet) := call Op.session
abbrev captureIsEnabled : CallM Bool := call Op.captureIsEnabled
abbrev backupError (errnum : Int) (text : String) : CallM Unit := call (Op.backupError errnum text)
abbrev fatalError (errnum : Int) (text : String) : CallM Unit := call (Op.fatalError errnum text)
abbrev mapGet : CallM (Option Ptr) := call (Op.mapGet fd)
abbrev mapPut (source : Ptr) : CallM Unit := call (Op.mapPut fd source)
abbrev mapErase : CallM Unit := call (Op.mapErase fd)
abbrev getOffset : CallM Int := call (Op.getOffset fd)
abbrev incrementOffset (nbyte : Int) : CallM Unit := call (Op.incrementOffset fd nbyte)
abbrev seekDescription (new_offset : Int) : CallM Unit := call (Op.seekDescription fd new_offset)
abbrev lockFileRange (r : Range) : CallM Unit := call (Op.lockRange file r)
abbrev unlockFileRange (r : Range) : CallM Bool := call (Op.unlockRange file r)
abbrev tableGet : CallM (Option Ptr) := call (Op.tableGet path)
abbrev newFile : CallM Ptr := call (Op.newFile path)
abbrev tablePut : CallM Unit := call (Op.tablePut file)
abbrev delete : CallM Unit := call (Op.delete file)
abbrev setFlags (flags : Nat) : CallM Unit := call (Op.setFlags file flags)
abbrev name : CallM (Option Path) := call (Op.name file)
abbrev setName (n : Option Path) : CallM Unit := call (Op.setName file n)
abbrev referenceCount : CallM Nat := call (Op.referenceCount file)
abbrev addReference : CallM Unit := call (Op.addReference file)
abbrev dropReference : CallM Unit := call (Op.dropReference file)
abbrev removeEntry (n : Path) : CallM Unit := call (Op.tableRemove file n)
abbrev isUnlinked : CallM Bool := call (Op.isUnlinked file)
abbrev setUnlinked : CallM Unit := call (Op.setUnlinked file)
abbrev getDestination : CallM (Option DestinationFile) := call (Op.destination file)
abbrev setDestination (d : Option DestinationFile) : CallM Unit := call (Op.setDestination file d)
abbrev addToTodo : CallM Unit := call (Op.addToTodo path)

end

/-- What a system call returns. -/
def value : Except Errno Int → Int
  | .ok v => v
  | .error _ => -1

/-- `if (c) { body }` -/
def onlyIf (c : Prop) [Decidable c] (body : CallM Unit) : CallM Unit :=
  if c then body else return ()

/-- An error that is reported when it is `ENOMEM`. -/
def reportNoMemory (e : Errno) (text : String) : CallM Unit :=
  onlyIf (e.code = 12) (backupError e.code text)

/-- The use of a null pointer. -/
def nullPointer {α : Type} : CallM α := fail .pointer

/-- The value of an `off_t` as a `uint64_t`. -/
def u64 (x : Int) : Nat := (x % 2 ^ 64).toNat

/-- The value of a `ssize_t` as an `int`. -/
def toInt32 (x : Int) : Int := x.bmod (2 ^ 32)

/-! ## Destination files -/

/-- The loop of `destination_file::pwrite`; the buffer is not advanced. `fuel` bounds the
number of rounds: each writes at least one byte. -/
def pwriteLoop (d : DestinationFile) (buf : List UInt8) : Nat → Nat → Int → CallM Int
  | 0, _, _ => return 0
  | fuel + 1, nbyte, offset =>
    if nbyte = 0 then return 0
    else do
      match ← backup (.pwrite d.id (buf.take nbyte) offset) with
      | .error e =>
        backupError e.code "Failed to pwrite backup file at %s:%d"
        return e.code
      | .ok wr =>
        if wr = 0 then
          backupError (-1) "pwrite inexplicably returned zero at %s:%d"
          return -1
        else pwriteLoop d buf fuel (nbyte - wr) (offset + wr)

def destinationPwrite (d : DestinationFile) (buf : List UInt8) (offset : Int) : CallM Int :=
  pwriteLoop d buf buf.length buf.length offset

def destinationTruncate (d : DestinationFile) (length : Int) : CallM Int := do
  match ← backup (.ftruncate d.id length) with
  | .error e =>
    backupError e.code "Truncating backup file failed at %s:%d"
    return e.code
  | .ok _ => return 0

def destinationUnlink (d : DestinationFile) : CallM Int := do
  match ← backup (.unlink d.path) with
  | .error e =>
    backupError e.code "Failed unlink of backup file %s"
    return e.code
  | .ok _ => return 0

/-- `destination_file::rename`, of the destination of `file`. -/
def destinationRename (file : Ptr) (d : DestinationFile) (new_path : Path) : CallM Int := do
  match ← backup (.rename d.path new_path) with
  | .error e =>
    if e = .enoent then
      setDestination file (some { d with path := new_path })
      return e.code
    else
      backupError e.code "Rename failed on backup file."
      return e.code
  | .ok _ =>
    setDestination file (some { d with path := new_path })
    return 0

/-! ## Source files and their table -/

def tryToRemoveDestination (file : Ptr) : CallM Unit := do
  match ← getDestination file with
  | none => return ()
  | some d =>
    if (← referenceCount file) > 1 then return ()
    else
      match ← backup (.close d.id) with
      | .error e =>
        backupError e.code "Trying to close a backup file (fd=%d)"
        setDestination file none
      | .ok _ => setDestination file none

def tryToCreateDestinationFile (file : Ptr) (full_path : Path) : CallM Int := do
  if ← isUnlinked file then return 0
  else
    match ← getDestination file with
    | some _ => return 0
    | none =>
      match ← backup (.openFile full_path) with
      | .error e => return e.code
      | .ok fd =>
        setDestination file (some ⟨fd, full_path⟩)
        return 0

def removeReference (file : Ptr) : CallM Unit := do
  if (← referenceCount file) > 0 then dropReference file else fail .check

/-- `file_hash_table::remove` -/
def tableRemove (file : Ptr) : CallM Unit := do
  match ← name file with
  | none => nullPointer
  | some n => removeEntry file n

def getOrCreate (file_name : Path) : CallM Ptr := do
  match ← tableGet file_name with
  | some source =>
    addReference source
    return source
  | none =>
    let source ← newFile file_name
    tablePut source
    addReference source
    return source

def tryToRemove (file : Ptr) : CallM Unit := do
  removeReference file
  if (← referenceCount file) = 0 then
    tryToRemoveDestination file
    tableRemove file
    delete file
  else return ()

/-- `source_file::rename` -/
def sourceFileRename (file : Ptr) (new_name : Path) : CallM Int := do
  match ← realpath .sourceFileRename new_name with
  | .error e =>
    setName file none
    return e.code
  | .ok full_path =>
    setName file (some full_path)
    return 0

/-- `file_hash_table::rename` -/
def tableRename (target : Ptr) (new_source_name dest : Path) : CallM Int := do
  lock (.nameWrite target)
  tableRemove target
  let r ← sourceFileRename target new_source_name
  if r ≠ 0 then
    backupError r "Could not do target->rename to %s"
    unlock (.nameWrite target)
    return r
  else
    match ← getDestination target with
    | none => nullPointer
    | some dest_file =>
      let r ← destinationRename target dest_file dest
      if r ≠ 0 then
        backupError r "Could not do dest_file->rename to %s"
        unlock (.nameWrite target)
        return r
      else
        tablePut target
        unlock (.nameWrite target)
        return 0

def renameLocked (old_path new_path old_dest dest_path : Path) : CallM Int := do
  lock .table
  let target ← getOrCreate old_path
  let r ← tryToCreateDestinationFile target old_dest
  if r ≠ 0 then
    unlock .table
    return r
  else
    let r ← tableRename target new_path dest_path
    tryToRemove target
    unlock .table
    return r

/-! ## Paths of the backup -/

/-- `create_subdirectories`, for the prefixes that are left. -/
def createSubdirectories : List Path → CallM Int :=
  OpenPath.createSubdirectories (fun directory => backup (.mkdir directory)) OpenPath.errnoOf

/-- `open_path` -/
def openPath (file_path : Path) : CallM Int :=
  OpenPath.openPath (fun directory => backup (.mkdir directory)) OpenPath.errnoOf
    (fun path => backup (.stat path)) file_path

/-- `translate_prefix_of_realpath`; a path in no source directory makes it read before the
beginning of the array. -/
def translatePrefixOfRealpath (D : DirectorySet) (absfile : Path) : CallM Path :=
  match D.translatePrefixOfRealpath absfile with
  | some path => return path
  | none => nullPointer

def isPrefix (D : DirectorySet) (file : Path) : CallM Bool := do
  match ← realpath .isPrefix file with
  | .error _ => return false
  | .ok absfile => return D.isPrefixOfRealpath absfile

/-- `translate_prefix`; when `realpath` fails, its null pointer is compared. -/
def translatePrefix (D : DirectorySet) (file : Path) : CallM Path := do
  match ← realpath .translatePrefix file with
  | .error _ => nullPointer
  | .ok absfile => translatePrefixOfRealpath D absfile

/-- `backup_session::capture_open`: what it returns, and the name. -/
def captureOpen (D : DirectorySet) (file : Path) : CallM (Int × Option Path) := do
  if ← isPrefix D file then
    let backup_file_name ← translatePrefix D file
    if D.fileIsExcluded backup_file_name then return (-1, none)
    else
      let r ← openPath backup_file_name
      if r ≠ 0 then return (r, none) else return (0, some backup_file_name)
  else return (0, none)

def captureMkdir (D : DirectorySet) (pathname : Path) : CallM Int := do
  if ← isPrefix D pathname then
    let backup_directory_name ← translatePrefix D pathname
    openPath backup_directory_name
  else return 0

/-! ## The manager -/

/-- A block with a `with_manager_enter_session_and_lock`; it does nothing without a
session. -/
def withSession (body : DirectorySet → CallM Unit) : CallM Unit := do
  rdlock
  match ← session with
  | none => rdunlock
  | some D =>
    body D
    rdunlock

/-- `setup_description_and_source_file` -/
def setupDescriptionAndSourceFile (fd : Nat) (file : Path) (flags : Nat) : CallM Int := do
  match ← realpath .setupDescription file with
  | .error e =>
    backupError e.code "realpath failed on %s"
    return e.code
  | .ok full_source_file_path =>
    lock .table
    let source ← getOrCreate full_source_file_path
    setFlags source flags
    unlock .table
    mapPut fd source
    return 0

/-- The part of `manager::open` inside the session. -/
def openCapture (fd : Nat) (file : Path) (D : DirectorySet) : CallM Unit := do
  match ← mapGet fd with
  | none => nullPointer
  | some source =>
    lock .table
    lock (.nameRead source)
    let (r, backup_file_name) ← captureOpen D file
    if r ≠ 0 then
      unlock (.nameRead source)
      unlock .table
    else
      match backup_file_name with
      | none =>
        unlock (.nameRead source)
        unlock .table
      | some backup_file_name =>
        let r ← tryToCreateDestinationFile source backup_file_name
        if r ≠ 0 then
          backupError r "Could not open backup file %s"
          unlock (.nameRead source)
          unlock .table
        else
          unlock (.nameRead source)
          unlock .table

/-- `manager::open`, from the description on. -/
def openTracked (fd : Nat) (file : Path) (flags : Nat) : CallM Unit := do
  let result ← setupDescriptionAndSourceFile fd file flags
  if result ≠ 0 then return () else withSession (openCapture fd file)

/-- `manager::open`; what it returns is ignored. -/
def managerOpen (fd : Nat) (file : Path) (flags : Nat) : CallM Unit := do
  match ← fstat fd with
  | .error e =>
    backupError e.code "Could not stat incoming file %s"
    openTracked fd file flags
  | .ok .regular => openTracked fd file flags
  | .ok _ => return ()

def managerClose (fd : Nat) : CallM Unit := do
  match ← mapGet fd with
  | none => return ()
  | some source =>
    withSession fun _ => do
      lock .table
      tryToRemoveDestination source
      unlock .table
    mapErase fd
    lock .table
    tryToRemove source
    unlock .table

/-- The captured part of `write` and `pwrite`. -/
def captureWrite (file : Ptr) (buf : List UInt8) (offset : Int) (_ : DirectorySet) :
    CallM Unit := do
  match ← getDestination file with
  | none => return ()
  | some dest_file =>
    let _ ← destinationPwrite dest_file buf offset
    return ()

/-- `unlock_range`, which reports a range that is not locked; the result says whether it
was. -/
def unlockRangeReporting (file : Ptr) (r : Range) : CallM Bool := do
  if ← unlockFileRange file r then return true
  else
    fatalError 22 "Range doesn't exist at %s:%d"
    return false

def managerWrite (fd : Nat) (buf : List UInt8) : CallM Int := do
  match ← mapGet fd with
  | none => return value (← real (.write fd buf))
  | some file =>
    lock (.description fd)
    let lock_start ← getOffset fd
    let range : Range := ⟨u64 lock_start, u64 (lock_start + buf.length)⟩
    lockFileRange file range
    let n_wrote := value (← real (.write fd buf))
    onlyIf (n_wrote > 0) (incrementOffset fd n_wrote)
    unlock (.description fd)
    withSession (captureWrite file buf lock_start)
    let _ ← unlockRangeReporting file range
    return n_wrote

def managerRead (fd nbyte : Nat) : CallM Int := do
  match ← mapGet fd with
  | none => return value (← real (.read fd nbyte))
  | some _ =>
    lock (.description fd)
    let r := value (← real (.read fd nbyte))
    onlyIf (r > 0) (incrementOffset fd r)
    unlock (.description fd)
    return r

def managerPwrite (fd : Nat) (buf : List UInt8) (offset : Int) : CallM Int := do
  match ← mapGet fd with
  | none => return toInt32 (value (← real (.pwrite fd buf offset)))
  | some file =>
    let range : Range := ⟨u64 offset, u64 (offset + buf.length)⟩
    lockFileRange file range
    let nbytes_written := value (← real (.pwrite fd buf offset))
    if nbytes_written < 0 then
      let e ← errno
      let _ ← unlockRangeReporting file range
      setErrno e
      return nbytes_written
    else
      onlyIf (nbytes_written > 0) (withSession (captureWrite file buf offset))
      let _ ← unlockRangeReporting file range
      return nbytes_written

def managerLseek (fd : Nat) (offset : Int) (whence : Nat) : CallM Int := do
  match ← mapGet fd with
  | none => return value (← real (.lseek fd offset whence))
  | some _ =>
    lock (.description fd)
    let new_offset := value (← real (.lseek fd offset whence))
    seekDescription fd new_offset
    unlock (.description fd)
    return new_offset

def captureRename (full_old_path newpath : Path) (D : DirectorySet) : CallM Unit := do
  match ← realpath .captureRename newpath with
  | .error e => reportNoMemory e "Could not rename user file: %s"
  | .ok full_new_path =>
    if D.isPrefixOfRealpath full_old_path ∧ D.isPrefixOfRealpath full_new_path then
      let full_old_destination_path ← translatePrefixOfRealpath D full_old_path
      let full_new_destination_path ← translatePrefixOfRealpath D full_new_path
      let r ← renameLocked full_old_path full_new_path full_old_destination_path
        full_new_destination_path
      if r ≠ 0 then return () else addToTodo full_new_destination_path
    else return ()

def managerRename (oldpath newpath : Path) : CallM Int := do
  match ← realpath .rename oldpath with
  | .error e =>
    reportNoMemory e "Could not rename file."
    return value (← real (.rename oldpath newpath))
  | .ok full_old_path =>
    let user_error := value (← real (.rename oldpath newpath))
    onlyIf (user_error = 0) (withSession (captureRename full_old_path newpath))
    return user_error

/-- `should_capture_unlink_of_file`, with the session. -/
def shouldCaptureUnlinkOfFile (file : Path) : CallM (Option DirectorySet) := do
  match ← session with
  | none => return none
  | some D =>
    if ← captureIsEnabled then
      if D.isPrefixOfRealpath file ∧ ¬ D.fileIsExcluded file then return some D else return none
    else return none

/-- The captured part of `unlink`; the result says whether the backup's file has been dealt
with. -/
def captureUnlink (full_path : Path) (source : Ptr) (D : DirectorySet) : CallM Bool := do
  match ← getDestination source with
  | some dest => unlinkDestination dest
  | none =>
    let dest_path ← translatePrefixOfRealpath D full_path
    let r ← tryToCreateDestinationFile source dest_path
    if r ≠ 0 then return false
    else
      match ← getDestination source with
      | none => nullPointer
      | some dest => unlinkDestination dest
where
  /-- Unlink the destination file. -/
  unlinkDestination (dest : DestinationFile) : CallM Bool := do
    let r ← destinationUnlink dest
    if r ≠ 0 then
      let error ← errno
      backupError error "Could not unlink backup copy."
      return true
    else return true

/-- The rest of the locked section of `unlink`. -/
def finishUnlink (source : Ptr) : CallM Unit := do
  lock (.nameWrite source)
  setUnlinked source
  tryToRemoveDestination source
  unlock (.nameWrite source)
  tryToRemove source

/-- The section of `unlink` under the session lock and the table's mutex. When no destination
can be created, the rest is left out. -/
def unlinkSection (full_path : Path) (source : Ptr) : CallM Unit := do
  match ← shouldCaptureUnlinkOfFile full_path with
  | none => finishUnlink source
  | some D =>
    if ← captureUnlink full_path source D then finishUnlink source else return ()

def managerUnlink (path : Path) : CallM Int := do
  match ← realpath .unlink path with
  | .error e =>
    reportNoMemory e "Could not unlink path."
    return value (← real (.unlink path))
  | .ok full_path =>
    let user_error := value (← real (.unlink path))
    if user_error ≠ 0 then return user_error
    else
      lock .table
      let source ← getOrCreate full_path
      unlock .table
      rdlock
      lock .table
      unlinkSection full_path source
      unlock .table
      rdunlock
      return user_error

/-- The captured part of `ftruncate`. -/
def captureFtruncate (file : Ptr) (length : Int) (_ : DirectorySet) : CallM Unit := do
  match ← getDestination file with
  | none => return ()
  | some dest_file =>
    let _ ← destinationTruncate dest_file length
    return ()

def managerFtruncate (fd : Nat) (length : Int) : CallM Int := do
  match ← mapGet fd with
  | none => return value (← real (.ftruncate fd length))
  | some file =>
    let range : Range := ⟨u64 length, llongMax⟩
    lockFileRange file range
    let user_result := value (← real (.ftruncate fd length))
    if user_result = 0 then
      withSession (captureFtruncate file length)
      let _ ← unlockRangeReporting file range
      return user_result
    else
      let e ← errno
      let _ ← unlockRangeReporting file range
      setErrno e
      return user_result

/-- The captured part of `truncate`. -/
def captureTruncate (destination_file : Path) (length : Int) : CallM Unit := do
  if ← captureIsEnabled then
    match ← backup (.truncate destination_file length) with
    | .error e => onlyIf (e ≠ .enoent) (backupError e.code "Could not truncate backup file.")
    | .ok _ => return ()
  else return ()

/-- `truncate` of a file in a source directory, during a session. The table is searched by
the backup's path. -/
def truncateInSession (path full_path destination_file : Path) (length : Int) : CallM Int := do
  lock .table
  match ← tableGet destination_file with
  | none => nullPointer
  | some file =>
    addReference file
    unlock .table
    let range : Range := ⟨u64 length, llongMax⟩
    lockFileRange file range
    let user_error := value (← real (.truncate full_path length))
    onlyIf (user_error = 0) (captureTruncate destination_file length)
    let unlocked ← unlockRangeReporting file range
    removeReference file
    if unlocked then return user_error else return value (← real (.truncate path length))

def managerTruncate (path : Path) (length : Int) : CallM Int := do
  match ← realpath .truncate path with
  | .error e =>
    backupError e.code "Failed to truncate backup file."
    return value (← real (.truncate path length))
  | .ok full_path =>
    rdlock
    match ← session with
    | some D =>
      if D.isPrefixOfRealpath full_path then
        let destination_file ← translatePrefixOfRealpath D full_path
        let user_error ← truncateInSession path full_path destination_file length
        rdunlock
        return user_error
      else
        let user_error := value (← real (.truncate path length))
        rdunlock
        return user_error
    | none =>
      let user_error := value (← real (.truncate path length))
      rdunlock
      return user_error

def managerMkdir (pathname : Path) : CallM Unit := do
  rdlock
  match ← session with
  | none => rdunlock
  | some D =>
    let r ← captureMkdir D pathname
    if r ≠ 0 then
      backupError r "failed mkdir creating %s"
      rdunlock
    else rdunlock

/-! ## The interposed public API -/

/-- A method of the manager, unless it is dead. -/
def ifAlive (method : CallM Unit) : CallM Unit := do
  if ← isAlive then method else return ()

/-- The interposed `open`. Without `O_CREAT` it does not look for a mode, and passes none on. -/
def interposedOpen (file : Path) (oflag : Nat) (creat : Bool) (mode : Option Nat) : CallM Int := do
  if creat then
    lock .fileOp
    let fd := value (← real (.openFile file oflag creat mode))
    onlyIf (fd ≥ 0) (ifAlive (managerOpen fd.toNat file oflag))
    unlock .fileOp
    return fd
  else
    let fd := value (← real (.openFile file oflag creat none))
    if fd ≥ 0 then
      match ← fstat fd.toNat with
      | .error _ => return fd
      | .ok kind =>
        onlyIf (kind ≠ .fifo) (ifAlive (managerOpen fd.toNat file oflag))
        return fd
    else return fd

/-- The manager's method when it is alive, and the real call otherwise. -/
def whenAlive (c : AppCall) (method : CallM Int) : CallM Int := do
  if ← isAlive then method else return value (← real c)

def interposed : AppCall → CallM Int
  | .openFile file oflag creat mode => interposedOpen file oflag creat mode
  | .close fd => do
    ifAlive (managerClose fd)
    return value (← real (.close fd))
  | .read fd nbyte => whenAlive (.read fd nbyte) (managerRead fd nbyte)
  | .write fd buf => whenAlive (.write fd buf) (managerWrite fd buf)
  | .pwrite fd buf offset => whenAlive (.pwrite fd buf offset) (managerPwrite fd buf offset)
  | .lseek fd offset whence => whenAlive (.lseek fd offset whence) (managerLseek fd offset whence)
  | .ftruncate fd length => whenAlive (.ftruncate fd length) (managerFtruncate fd length)
  | .truncate path length => whenAlive (.truncate path length) (managerTruncate path length)
  | .rename oldpath newpath => whenAlive (.rename oldpath newpath) do
    lock .fileOp
    let r ← managerRename oldpath newpath
    unlock .fileOp
    return r
  | .unlink path => whenAlive (.unlink path) do
    lock .fileOp
    let r ← managerUnlink path
    unlock .fileOp
    return r
  | .mkdir pathname mode => do
    let r := value (← real (.mkdir pathname mode))
    onlyIf (r = 0) (ifAlive (managerMkdir pathname))
    return r

end TokuBackup.Interpose
