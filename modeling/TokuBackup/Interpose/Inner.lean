import TokuBackup.Interpose.Model

/-!
# The inner parts of calls

The parts of the interposed calls that do not look at the session and take no lock: what they
do with the table, the destinations and the files of the backup once the locks are held.
-/

namespace TokuBackup.Interpose

open Kernel Table Lib Prog
open DoBackup (Errno)

/-- The operation takes no lock, gives none back, and does not look at the session. -/
def Op.inner : Op → Bool
  | .lock _ => false
  | .unlock _ => false
  | .rdlock => false
  | .rdunlock => false
  | .session => false
  | .mapGet _ => false
  | .mapPut _ _ => false
  | .mapErase _ => false
  | .lockRange _ _ => false
  | .unlockRange _ _ => false
  | .setFlags _ _ => false
  | .addToTodo _ => false
  | _ => true

/-- Every operation of the program is inner. -/
def Inner {α : Type} (p : CallM α) : Prop := Performs (fun o => o.inner = true) p

section

variable {α β : Type}

theorem inner_pure (a : α) : Inner (pure a : CallM α) := trivial

theorem inner_call {o : Op} {f : o.Answer → CallM β} (ho : o.inner = true)
    (hf : ∀ r, Inner (f r)) : Inner (call o >>= f) :=
  performs_call ho hf

theorem inner_last {o : Op} (ho : o.inner = true) : Inner (call o : CallM o.Answer) :=
  performs_last ho

theorem inner_bind {p : CallM α} {f : α → CallM β} (h : Inner p) (hf : ∀ a, Inner (f a)) :
    Inner (p >>= f) :=
  Performs.bind h hf

theorem inner_onlyIf {c : Prop} [Decidable c] {body : CallM Unit} (h : Inner body) :
    Inner (onlyIf c body) := by
  unfold onlyIf
  split
  · exact h
  · exact inner_pure ()

theorem inner_reportNoMemory (e : Errno) (text : String) : Inner (reportNoMemory e text) :=
  inner_onlyIf (inner_last rfl)

/-! ## Destination files -/

theorem inner_pwriteLoop (d : DestinationFile) (buf : List UInt8) (fuel nbyte : Nat)
    (offset : Int) : Inner (pwriteLoop d buf fuel nbyte offset) := by
  induction fuel generalizing nbyte offset with
  | zero => exact inner_pure _
  | succ fuel ih =>
    unfold pwriteLoop
    split
    · exact inner_pure _
    · refine inner_call rfl fun r => ?_
      split
      · exact inner_call rfl fun _ => inner_pure _
      · split
        · exact inner_call rfl fun _ => inner_pure _
        · exact ih _ _

theorem inner_destinationTruncate (d : DestinationFile) (length : Int) :
    Inner (destinationTruncate d length) := by
  unfold destinationTruncate
  refine inner_call rfl fun r => ?_
  split
  · exact inner_call rfl fun _ => inner_pure _
  · exact inner_pure _

theorem inner_destinationUnlink (d : DestinationFile) : Inner (destinationUnlink d) := by
  unfold destinationUnlink
  refine inner_call rfl fun r => ?_
  split
  · exact inner_call rfl fun _ => inner_pure _
  · exact inner_pure _

theorem inner_destinationRename (file : Ptr) (d : DestinationFile) (new_path : Path) :
    Inner (destinationRename file d new_path) := by
  unfold destinationRename
  refine inner_call rfl fun r => ?_
  split
  · split
    · exact inner_call rfl fun _ => inner_pure _
    · exact inner_call rfl fun _ => inner_pure _
  · exact inner_call rfl fun _ => inner_pure _

/-! ## Source files and their table -/

theorem inner_tryToRemoveDestination (file : Ptr) : Inner (tryToRemoveDestination file) := by
  unfold tryToRemoveDestination
  refine inner_call rfl fun d => ?_
  split
  · exact inner_pure ()
  · refine inner_call rfl fun n => ?_
    split
    · exact inner_pure ()
    · refine inner_call rfl fun r => ?_
      split
      · exact inner_call rfl fun _ => inner_last rfl
      · exact inner_last rfl

theorem inner_tryToCreateDestinationFile (file : Ptr) (full_path : Path) :
    Inner (tryToCreateDestinationFile file full_path) := by
  unfold tryToCreateDestinationFile
  refine inner_call rfl fun u => ?_
  split
  · exact inner_pure _
  · refine inner_call rfl fun d => ?_
    split
    · exact inner_pure _
    · refine inner_call rfl fun r => ?_
      split
      · exact inner_pure _
      · exact inner_call rfl fun _ => inner_pure _

theorem inner_removeReference (file : Ptr) : Inner (removeReference file) := by
  unfold removeReference
  refine inner_call rfl fun (n : Nat) => ?_
  split
  · exact inner_last rfl
  · trivial

theorem inner_tableRemove (file : Ptr) : Inner (tableRemove file) := by
  unfold tableRemove
  refine inner_call rfl fun n => ?_
  split
  · trivial
  · exact inner_last rfl

theorem inner_getOrCreate (file_name : Path) : Inner (getOrCreate file_name) := by
  unfold getOrCreate
  refine inner_call rfl fun found => ?_
  split
  · exact inner_call rfl fun _ => inner_pure _
  · exact inner_call rfl fun _ => inner_call rfl fun _ => inner_call rfl fun _ => inner_pure _

theorem inner_tryToRemove (file : Ptr) : Inner (tryToRemove file) := by
  unfold tryToRemove
  refine inner_bind (inner_removeReference file) fun _ => inner_call rfl fun n => ?_
  split
  · refine inner_bind (inner_tryToRemoveDestination file) fun _ => ?_
    exact inner_bind (inner_tableRemove file) fun _ => inner_last rfl
  · exact inner_pure ()

theorem inner_sourceFileRename (file : Ptr) (new_name : Path) :
    Inner (sourceFileRename file new_name) := by
  unfold sourceFileRename
  refine inner_call rfl fun r => ?_
  split
  · exact inner_call rfl fun _ => inner_pure _
  · exact inner_call rfl fun _ => inner_pure _

/-! ## Paths of the backup -/

theorem inner_createSubdirectories (l : List Path) : Inner (createSubdirectories l) := by
  induction l with
  | nil => exact inner_pure _
  | cons directory rest ih =>
    rw [createSubdirectories, OpenPath.createSubdirectories]
    refine inner_call rfl fun r => ?_
    split
    · split
      · exact ih
      · exact inner_pure _
    · exact ih

theorem inner_openPath (file_path : Path) : Inner (openPath file_path) := by
  rw [openPath, OpenPath.openPath]
  refine inner_call rfl fun r => ?_
  split
  · exact inner_pure _
  · split
    · exact inner_createSubdirectories _
    · exact inner_pure _

theorem inner_translatePrefixOfRealpath (D : DirectorySet) (absfile : Path) :
    Inner (translatePrefixOfRealpath D absfile) := by
  unfold translatePrefixOfRealpath
  split
  · exact inner_pure _
  · trivial

theorem inner_isPrefix (D : DirectorySet) (file : Path) : Inner (isPrefix D file) := by
  unfold isPrefix
  refine inner_call rfl fun r => ?_
  split
  · exact inner_pure _
  · exact inner_pure _

theorem inner_translatePrefix (D : DirectorySet) (file : Path) :
    Inner (translatePrefix D file) := by
  unfold translatePrefix
  refine inner_call rfl fun r => ?_
  split
  · trivial
  · exact inner_translatePrefixOfRealpath D _

/-! ## Captured parts -/

theorem inner_captureOpen (D : DirectorySet) (file : Path) : Inner (captureOpen D file) := by
  unfold captureOpen
  refine inner_bind (inner_isPrefix D file) fun b => ?_
  split
  · refine inner_bind (inner_translatePrefix D file) fun backup_file_name => ?_
    split
    · exact inner_pure _
    · refine inner_bind (inner_openPath backup_file_name) fun r => ?_
      split
      · exact inner_pure _
      · exact inner_pure _
  · exact inner_pure _

theorem inner_captureMkdir (D : DirectorySet) (pathname : Path) :
    Inner (captureMkdir D pathname) := by
  unfold captureMkdir
  refine inner_bind (inner_isPrefix D pathname) fun b => ?_
  split
  · exact inner_bind (inner_translatePrefix D pathname) fun name => inner_openPath name
  · exact inner_pure _

theorem inner_captureWrite (file : Ptr) (buf : List UInt8) (offset : Int) (D : DirectorySet) :
    Inner (captureWrite file buf offset D) := by
  unfold captureWrite
  refine inner_call rfl fun d => ?_
  split
  · exact inner_pure _
  · exact inner_bind (inner_pwriteLoop _ _ _ _ _) fun _ => inner_pure _

theorem inner_captureFtruncate (file : Ptr) (length : Int) (D : DirectorySet) :
    Inner (captureFtruncate file length D) := by
  unfold captureFtruncate
  refine inner_call rfl fun d => ?_
  split
  · exact inner_pure _
  · exact inner_bind (inner_destinationTruncate _ length) fun _ => inner_pure _

theorem inner_unlinkDestination (dest : DestinationFile) :
    Inner (captureUnlink.unlinkDestination dest) := by
  unfold captureUnlink.unlinkDestination
  refine inner_bind (inner_destinationUnlink dest) fun r => ?_
  split
  · exact inner_call rfl fun _ => inner_call rfl fun _ => inner_pure _
  · exact inner_pure _

theorem inner_captureUnlink (full_path : Path) (source : Ptr) (D : DirectorySet) :
    Inner (captureUnlink full_path source D) := by
  unfold captureUnlink
  refine inner_call rfl fun d => ?_
  split
  · exact inner_unlinkDestination _
  · refine inner_bind (inner_translatePrefixOfRealpath D full_path) fun dest_path => ?_
    refine inner_bind (inner_tryToCreateDestinationFile source dest_path) fun r => ?_
    split
    · exact inner_pure _
    · refine inner_call rfl fun d => ?_
      split
      · trivial
      · exact inner_unlinkDestination _

theorem inner_captureTruncate (destination_file : Path) (length : Int) :
    Inner (captureTruncate destination_file length) := by
  unfold captureTruncate
  refine inner_call rfl fun b => ?_
  split
  · refine inner_call rfl fun r => ?_
    split
    · exact inner_onlyIf (inner_last rfl)
    · exact inner_pure _
  · exact inner_pure _

end

end TokuBackup.Interpose
