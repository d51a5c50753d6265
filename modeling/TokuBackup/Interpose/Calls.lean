import TokuBackup.DirectorySet
import TokuBackup.DoBackup.Calls
import TokuBackup.Lib.Prog
import TokuBackup.RangeLocks
import TokuBackup.Table.FileHashTable

/-!
# The operations of the interposed calls

What the library does in a call of the application, one operation at a time: the real call,
the system calls that it makes on its own behalf, and the reads and changes of what its
threads share. `call_real_*` are the system calls; the ones on the backup's files are kept
apart from the ones on the application's.
-/

namespace TokuBackup.Interpose

open Kernel Table
open DoBackup (Errno)

/-- A call of the application. -/
inductive AppCall where
  /-- `creat` is the flag `O_CREAT`; there is a `mode` when the flags have `open` take one, which
  `O_TMPFILE` does, too. -/
  | openFile (file : Path) (oflag : Nat) (creat : Bool) (mode : Option Nat)
  | close (fd : Nat)
  | read (fd nbyte : Nat)
  | write (fd : Nat) (buf : List UInt8)
  | pwrite (fd : Nat) (buf : List UInt8) (offset : Int)
  | lseek (fd : Nat) (offset : Int) (whence : Nat)
  | ftruncate (fd : Nat) (length : Int)
  | truncate (path : Path) (length : Int)
  | rename (oldpath newpath : Path)
  | unlink (path : Path)
  | mkdir (pathname : Path) (mode : Nat)
  deriving DecidableEq

/-- A system call on the files of the backup. -/
inductive BackupCall where
  | stat (path : Path)
  | mkdir (path : Path)
  /-- `open` with `O_RDWR | O_CREAT`. -/
  | openFile (path : Path)
  | pwrite (fd : Nat) (buf : List UInt8) (offset : Int)
  | ftruncate (fd : Nat) (length : Int)
  | truncate (path : Path) (length : Int)
  | unlink (path : Path)
  | rename (oldpath newpath : Path)
  | close (fd : Nat)
  deriving DecidableEq

/-- The call changes the files or directories of the backup, when it succeeds. -/
def BackupCall.Changes : BackupCall → Bool
  | .stat _ => false
  | .close _ => false
  | _ => true

/-- Where `realpath` is called. -/
inductive Site where
  | setupDescription
  | isPrefix
  | translatePrefix
  | rename
  | captureRename
  | sourceFileRename
  | unlink
  | truncate
  deriving DecidableEq

/-- What the interposed `open` wants to know about an fd. -/
inductive FdKind where
  | regular
  | fifo
  | other
  deriving DecidableEq

/-- The locks that a call takes, apart from the session lock and the range locks. -/
inductive Lock where
  /-- `m_atomic_file_op_mutex` -/
  | fileOp
  /-- The mutex of the file hash table. -/
  | table
  /-- The mutex of the fd's description. -/
  | description (fd : Nat)
  /-- `m_name_rwlock`, for reading. -/
  | nameRead (file : Ptr)
  /-- `m_name_rwlock`, for writing. -/
  | nameWrite (file : Ptr)
  deriving DecidableEq

inductive Op where
  | real (c : AppCall)
  | realpath (site : Site) (path : Path)
  | fstat (fd : Nat)
  | backup (c : BackupCall)
  | errno
  | setErrno (e : Int)
  | lock (l : Lock)
  | unlock (l : Lock)
  /-- The session lock, for reading. -/
  | rdlock
  | rdunlock
  | isAlive
  | session
  | captureIsEnabled
  | backupError (errnum : Int) (text : String)
  | fatalError (errnum : Int) (text : String)
  /-- `m_map.get`: the source file of the description. -/
  | mapGet (fd : Nat)
  | mapPut (fd : Nat) (source : Ptr)
  | mapErase (fd : Nat)
  | getOffset (fd : Nat)
  | incrementOffset (fd : Nat) (nbyte : Int)
  | seekDescription (fd : Nat) (new_offset : Int)
  | lockRange (file : Ptr) (r : Range)
  | unlockRange (file : Ptr) (r : Range)
  | tableGet (path : Path)
  | newFile (path : Path)
  | tablePut (file : Ptr)
  /-- `remove` of the entry with the file's name. -/
  | tableRemove (file : Ptr) (name : Path)
  | delete (file : Ptr)
  | setFlags (file : Ptr) (flags : Nat)
  | name (file : Ptr)
  | setName (file : Ptr) (name : Option Path)
  | referenceCount (file : Ptr)
  | addReference (file : Ptr)
  | dropReference (file : Ptr)
  | isUnlinked (file : Ptr)
  | setUnlinked (file : Ptr)
  | destination (file : Ptr)
  | setDestination (file : Ptr) (d : Option DestinationFile)
  | addToTodo (path : Path)
  deriving DecidableEq

def Op.Answer : Op → Type
  | .real _ => Except Errno Int
  | .realpath _ _ => Except Errno Path
  | .fstat _ => Except Errno FdKind
  | .backup _ => Except Errno Nat
  | .errno => Int
  | .isAlive => Bool
  | .session => Option DirectorySet
  | .captureIsEnabled => Bool
  | .mapGet _ => Option Ptr
  | .getOffset _ => Int
  | .unlockRange _ _ => Bool
  | .tableGet _ => Option Ptr
  | .newFile _ => Ptr
  | .name _ => Option Path
  | .referenceCount _ => Nat
  | .isUnlinked _ => Bool
  | .destination _ => Option DestinationFile
  | _ => Unit

/-- An operation with its answer. -/
abbrev Event := Sigma Op.Answer

/-- What an interposed call runs; it can only fail by ending the process. -/
abbrev CallM := Lib.Prog Op.Answer Fault

end TokuBackup.Interpose
