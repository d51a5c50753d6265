import Mathlib.Logic.Function.Basic
import TokuBackup.Interpose.Model

/-!
# The manager of a single-threaded application

What the operations of an interposed call do to the manager when no other thread of the
application runs. The system calls and the file hash table are answered by the environment:
the table may find any object that has the name looked up, and return any object as a new
one. An object can always be used, so that only null pointers are faults here. That a walk of
the table meets a deleted object is added to the calls by `Prog.hazard` where it matters; when it
happens is the subject of the table and of the life of source files.
-/

namespace TokuBackup.Interpose

open Kernel Table Lib
open DoBackup (Errno)

/-- A `source_file`, with its locked ranges. -/
structure TrackedFile extends SourceFile where
  lockedRanges : List Range
  deriving DecidableEq

structure Description where
  offset : Int
  source : Ptr
  deriving DecidableEq

structure Manager where
  isDead : Bool
  captureEnabled : Bool
  copyEnabled : Bool
  /-- `m_errnum` and `m_errstring`, when `m_an_error_happened`. -/
  error : Option (Int × String)
  session : Option DirectorySet
  map : Nat → Option Description
  source : Ptr → TrackedFile
  errno : Int

namespace Manager

/-- What a system call leaves in `errno`. -/
def after {α : Type} (s : Manager) : Except Errno α → Manager
  | .ok _ => s
  | .error e => { s with errno := e.code }

/-- `backup_error` on a thread without callbacks: the first error is kept. -/
def backupError (s : Manager) (errnum : Int) (text : String) : Manager :=
  { s with
    captureEnabled := false
    copyEnabled := false
    error := s.error.or (some (errnum, text)) }

def fatalError (s : Manager) (errnum : Int) (text : String) : Manager :=
  { s.backupError errnum text with isDead := true }

def modify (s : Manager) (file : Ptr) (f : TrackedFile → TrackedFile) : Manager :=
  { s with source := Function.update s.source file (f (s.source file)) }

def modifyDescription (s : Manager) (fd : Nat) (f : Description → Description) : Manager :=
  { s with map := Function.update s.map fd ((s.map fd).map f) }

@[simp] theorem source_modify_self (s : Manager) (file : Ptr) (f : TrackedFile → TrackedFile) :
    (s.modify file f).source file = f (s.source file) :=
  Function.update_self _ _ _

theorem source_modify_ne (s : Manager) {file p : Ptr} (h : p ≠ file)
    (f : TrackedFile → TrackedFile) :
    (s.modify file f).source p = s.source p :=
  Function.update_of_ne h _ _

end Manager

/-- What the manager itself answers. -/
def Op.reply : (o : Op) → Manager → Option o.Answer
  | .real _, _ => none
  | .realpath _ _, _ => none
  | .fstat _, _ => none
  | .backup _, _ => none
  | .tableGet _, _ => none
  | .newFile _, _ => none
  | .errno, s => some s.errno
  | .isAlive, s => some !s.isDead
  | .session, s => some s.session
  | .captureIsEnabled, s => some s.captureEnabled
  | .mapGet fd, s => some ((s.map fd).map Description.source)
  | .getOffset fd, s => some (((s.map fd).map Description.offset).getD 0)
  | .unlockRange file r, s => some (TokuBackup.unlockRange (s.source file).lockedRanges r).isSome
  | .name file, s => some (s.source file).fullPath
  | .referenceCount file, s => some (s.source file).referenceCount
  | .isUnlinked file, s => some (s.source file).unlinked
  | .destination file, s => some (s.source file).destinationFile
  | .setErrno _, _ => some ()
  | .lock _, _ => some ()
  | .unlock _, _ => some ()
  | .rdlock, _ => some ()
  | .rdunlock, _ => some ()
  | .backupError _ _, _ => some ()
  | .fatalError _ _, _ => some ()
  | .mapPut _ _, _ => some ()
  | .mapErase _, _ => some ()
  | .incrementOffset _ _, _ => some ()
  | .seekDescription _ _, _ => some ()
  | .lockRange _ _, _ => some ()
  | .tablePut _, _ => some ()
  | .tableRemove _ _, _ => some ()
  | .delete _, _ => some ()
  | .setFlags _ _, _ => some ()
  | .setName _ _, _ => some ()
  | .addReference _, _ => some ()
  | .dropReference _, _ => some ()
  | .setUnlinked _, _ => some ()
  | .setDestination _ _, _ => some ()
  | .addToTodo _, _ => some ()

theorem reply_mapGet {s : Manager} {fd : Nat} {d : Description} (h : s.map fd = some d) :
    Op.reply (.mapGet fd) s = some (some d.source) :=
  congrArg (fun o => some (Option.map Description.source o)) h

theorem reply_mapGet_none {s : Manager} {fd : Nat} (h : s.map fd = none) :
    Op.reply (.mapGet fd) s = some none :=
  congrArg (fun o => some (Option.map Description.source o)) h

/-- Which answers are possible: a system call that succeeds returns a number that is not
negative, `pwrite` writes no more than it was given, and the table finds a file by its
name. -/
def Op.allows : (o : Op) → Manager → o.Answer → Bool
  | .real _, _, (r : Except Errno Int) =>
    match r with
    | .ok v => decide (0 ≤ v)
    | .error _ => true
  | .backup (.pwrite _ buf _), _, (r : Except Errno Nat) =>
    match r with
    | .ok n => decide (n ≤ buf.length)
    | .error _ => true
  | .tableGet path, s, (r : Option Ptr) =>
    match r with
    | some p => decide ((s.source p).fullPath = some path)
    | none => true
  | _, _, _ => true

/-- What an operation leaves behind. -/
def Op.next : (o : Op) → Manager → o.Answer → Manager
  | .real _, s, (r : Except Errno Int) => s.after r
  | .realpath _ _, s, (r : Except Errno Path) => s.after r
  | .fstat _, s, (r : Except Errno FdKind) => s.after r
  | .backup _, s, (r : Except Errno Nat) => s.after r
  | .setErrno e, s, _ => { s with errno := e }
  | .backupError errnum text, s, _ => s.backupError errnum text
  | .fatalError errnum text, s, _ => s.fatalError errnum text
  | .mapPut fd source, s, _ => { s with map := Function.update s.map fd (some ⟨0, source⟩) }
  | .mapErase fd, s, _ => { s with map := Function.update s.map fd none }
  | .incrementOffset fd nbyte, s, _ =>
    s.modifyDescription fd fun d => { d with offset := d.offset + nbyte }
  | .seekDescription fd new_offset, s, _ =>
    s.modifyDescription fd fun d => { d with offset := new_offset }
  | .lockRange file r, s, _ =>
    s.modify file fun f => { f with lockedRanges := f.lockedRanges ++ [r] }
  | .unlockRange file r, s, _ =>
    s.modify file fun f => { f with
      lockedRanges := (TokuBackup.unlockRange f.lockedRanges r).getD f.lockedRanges }
  | .newFile path, s, (p : Ptr) => s.modify p fun _ => ⟨⟨some path, 0, false, none⟩, []⟩
  | .setName file n, s, _ => s.modify file fun f => { f with fullPath := n }
  | .addReference file, s, _ =>
    s.modify file fun f => { f with referenceCount := f.referenceCount + 1 }
  | .dropReference file, s, _ =>
    s.modify file fun f => { f with referenceCount := f.referenceCount - 1 }
  | .setUnlinked file, s, _ => s.modify file fun f => { f with unlinked := true }
  | .setDestination file d, s, _ => s.modify file fun f => { f with destinationFile := d }
  | _, s, _ => s

/-- The operation reports nothing. -/
def Op.mute : Op → Bool
  | .backupError _ _ => false
  | .fatalError _ _ => false
  | _ => true

/-- The manager, with everything else left to the environment. -/
def managerHandler : Handler Op.Answer Manager := ⟨Op.reply, Op.allows, Op.next⟩

/-- A call of the application, with the manager before and after it, what has happened, and how
it has ended. -/
structure CallStep where
  call : AppCall
  before : Manager
  events : List Event
  result : Except Fault Int
  after : Manager

/-- The step is an execution of the interposed call. -/
def CallStep.Runs (st : CallStep) : Prop :=
  Prog.exec managerHandler (interposed st.call) st.before st.events = some (st.result, st.after)

/-- The manager during a session, with no file open. -/
def capturing (D : DirectorySet) : Manager :=
  ⟨false, true, true, none, some D, fun _ => none, fun _ => ⟨⟨none, 0, false, none⟩, []⟩, 0⟩

/-- The directory `/s` is backed up to `/b`. -/
def oneDirectory : DirectorySet := ⟨[("/s".toList, "/b".toList)], fun _ => false⟩

/-- During a session, with the fd 3 open on a file that is in the backup. -/
def openInSession : Manager :=
  { capturing oneDirectory with
    map := fun fd => if fd = 3 then some ⟨0, 1⟩ else none
    source := fun _ => ⟨⟨some "/s/x".toList, 1, false, some ⟨7, "/b/x".toList⟩⟩, []⟩ }

end TokuBackup.Interpose
