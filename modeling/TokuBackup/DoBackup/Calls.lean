import TokuBackup.Kernel.Path
import TokuBackup.Lib.Script

/-!
# The calls of the backup thread

The system calls and callbacks whose outcome `do_backup` depends on, with their answers. What
other threads change while the backup runs is an answer too: whether a source file has a
destination, whether `O_DIRECT` has changed, and which files have been added to the todo list.
-/

namespace TokuBackup.DoBackup

open Kernel

/-- The `errno` of a call that has failed. -/
structure Errno where
  code : Int
  code_ne : code ≠ 0
  deriving DecidableEq

namespace Errno

def enoent : Errno := ⟨2, by decide⟩
def eio : Errno := ⟨5, by decide⟩
def ebusy : Errno := ⟨16, by decide⟩
def eexist : Errno := ⟨17, by decide⟩
def einval : Errno := ⟨22, by decide⟩

end Errno

/-- What `st_mode` says. -/
inductive FileKind where
  | regular
  | directory
  | other
  deriving DecidableEq

/-- What `try_to_create_destination_file` comes to. -/
inductive Creation where
  /-- The source file is marked as unlinked. -/
  | unlinked
  /-- The source file has a destination already. -/
  | existing
  /-- The destination is opened, or that fails. -/
  | opened (error : Option Errno)

/-- What `try_to_remove_destination` comes to. -/
inductive Removal where
  /-- There is no destination, or others hold a reference to the source file. -/
  | kept
  | closed (error : Option Errno)

inductive Call where
  /-- The poll callback. -/
  | poll
  | trylock
  /-- The calls of `validate` on the destination directory `i`. -/
  | statDestination (i : Nat)
  | opendirDestination (i : Nat)
  | readdirDestination (i : Nat)
  | closedirDestination (i : Nat)
  /-- The calls of `open_path`. -/
  | statBackup (path : Path)
  | mkdirBackup (path : Path)
  | createDestination (path : Path)
  | removeDestination
  /-- The calls of the copier. -/
  | statSource (path : Path)
  | opendirSource (path : Path)
  | mkdir (path : Path)
  | readdirSource
  | closedirSource
  | openSource (path : Path)
  | lstatSource (path : Path)
  | closeSource
  | clock
  /-- Whether the throttle asks for a pause. -/
  | throttle
  /-- `given_flags_are_different`. -/
  | flags
  /-- Closing the source and opening it again: the `close`, the `open`, and the `lseek` when
  the `open` succeeds. -/
  | reopen (path : Path)
  | read
  | write
  /-- The files that other threads have added to the todo list. -/
  | added
  deriving DecidableEq

def Call.Answer : Call → Type
  | .poll => Int
  | .trylock => Option Errno
  | .statDestination _ => Except Errno FileKind
  | .opendirDestination _ => Option Errno
  | .readdirDestination _ => Except Errno (Option Path)
  | .closedirDestination _ => Option Errno
  | .statBackup _ => Except Errno FileKind
  | .mkdirBackup _ => Option Errno
  | .createDestination _ => Creation
  | .removeDestination => Removal
  | .statSource _ => Except Errno FileKind
  | .opendirSource _ => Option Errno
  | .mkdir _ => Option Errno
  | .readdirSource => Option Path
  | .closedirSource => Option Errno
  | .openSource _ => Option Errno
  | .lstatSource _ => Bool
  | .closeSource => Option Errno
  | .clock => Option Errno
  | .throttle => Bool
  | .flags => Bool
  | .reopen _ => Option Errno × Except Errno (Option Errno)
  | .read => Except Errno Nat
  | .write => Except Errno Nat
  | .added => List Path

/-- A call with its answer. -/
abbrev Event := Sigma Call.Answer

/-- `.` or `..` -/
def isDot (name : Path) : Bool := name == ['.'] || name == ['.', '.']

/-! ## Failures

Which answers are failures that `do_backup` returns, and which are reported and then lost,
for a set of `count` directories. -/

@[simp] def Failed : Option Errno → Prop
  | some _ => True
  | none => False

/-- A failure with another error than `allowed`. -/
@[simp] def FailedBut (allowed : Errno) : Option Errno → Prop
  | some e => e ≠ allowed
  | none => False

@[simp] def errorOf {α : Type} : Except Errno α → Option Errno
  | .error e => some e
  | .ok _ => none

@[simp] def NotDirectory : Except Errno FileKind → Prop
  | .ok .directory => False
  | _ => True

/-- `readdir` fails, or finds an entry in a directory that should be empty. -/
@[simp] def Foreign : Except Errno (Option Path) → Prop
  | .ok (some name) => isDot name = false
  | .ok none => False
  | .error _ => True

@[simp] def Creation.error : Creation → Option Errno
  | .opened error => error
  | _ => none

@[simp] def Removal.error : Removal → Option Errno
  | .closed error => error
  | .kept => none

/-- The source cannot be opened again or cannot be positioned; when it is gone, an error of
`close` counts. -/
@[simp] def NotReopened : Option Errno × Except Errno (Option Errno) → Prop
  | (close, .error e) => e ≠ .enoent ∨ Failed close
  | (_, .ok lseek) => Failed lseek

/-- The source cannot be closed, although it can be opened again. -/
@[simp] def ReopenedUnclosed : Option Errno × Except Errno (Option Errno) → Prop
  | (close, .ok none) => Failed close
  | _ => False

@[simp] def Event.Carried (count : Nat) : Event → Prop
  | ⟨.poll, r⟩ => @Ne Int r 0
  | ⟨.trylock, r⟩ => Failed r
  | ⟨.statDestination _, r⟩ => NotDirectory r
  | ⟨.opendirDestination _, r⟩ => Failed r
  | ⟨.readdirDestination i, r⟩ => i + 1 = count ∧ Foreign r
  | ⟨.closedirDestination _, r⟩ => Failed r
  | ⟨.statBackup _, r⟩ => FailedBut .enoent (errorOf (α := FileKind) r)
  | ⟨.mkdirBackup _, r⟩ => FailedBut .eexist r
  | ⟨.createDestination _, r⟩ => Failed (Creation.error r)
  | ⟨.statSource _, r⟩ => FailedBut .enoent (errorOf (α := FileKind) r)
  | ⟨.opendirSource _, r⟩ => FailedBut .enoent r
  | ⟨.mkdir _, r⟩ => FailedBut .eexist r
  | ⟨.closedirSource, r⟩ => Failed r
  | ⟨.openSource _, r⟩ => FailedBut .enoent r
  | ⟨.closeSource, r⟩ => Failed r
  | ⟨.clock, r⟩ => Failed r
  | ⟨.reopen _, r⟩ => NotReopened r
  | ⟨.read, r⟩ => Failed (errorOf (α := Nat) r)
  | ⟨.write, r⟩ => Failed (errorOf (α := Nat) r)
  | _ => False

/-- A destination directory that is not the last one is not empty, or cannot be read; a
backup file cannot be closed; or the source cannot be closed when it is opened again. -/
@[simp] def Event.Lost (count : Nat) : Event → Prop
  | ⟨.readdirDestination i, r⟩ => i + 1 ≠ count ∧ Foreign r
  | ⟨.removeDestination, r⟩ => Failed (Removal.error r)
  | ⟨.reopen _, r⟩ => ReopenedUnclosed r
  | _ => False

end TokuBackup.DoBackup
