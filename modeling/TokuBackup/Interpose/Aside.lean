import TokuBackup.Interpose.Manager

/-!
# What an interposed call does on the side

The pieces of the interposed calls that only deal with the backup: they perform no real call,
always come to an end, and leave what the application's calls depend on as it is: the session,
the descriptions, and the names, reference counts and locked ranges of the source files.
-/

namespace TokuBackup.Interpose

open Kernel Table Lib Prog
open DoBackup (Errno)

/-! ## Light operations -/

/-- The operation is neither a real call, nor does it change a description or anything but the
destination of a source file. The resolutions of paths that a call depends on and the look at
the table are left out, too. -/
def Op.light : Op → Bool
  | .real _ => false
  | .realpath .translatePrefix _ => false
  | .realpath .sourceFileRename _ => false
  | .realpath .truncate _ => false
  | .tableGet _ => false
  | .fatalError _ _ => false
  | .mapPut _ _ => false
  | .mapErase _ => false
  | .incrementOffset _ _ => false
  | .seekDescription _ _ => false
  | .lockRange _ _ => false
  | .unlockRange _ _ => false
  | .newFile _ => false
  | .setName _ _ => false
  | .addReference _ => false
  | .dropReference _ => false
  | .setUnlinked _ => false
  | _ => true

/-- The same file up to its destination. -/
structure SameFile (f f' : TrackedFile) : Prop where
  fullPath : f'.fullPath = f.fullPath
  referenceCount : f'.referenceCount = f.referenceCount
  unlinked : f'.unlinked = f.unlinked
  lockedRanges : f'.lockedRanges = f.lockedRanges

/-- The same manager up to the destinations, the flags, the error and `errno`. -/
structure Alike (s s' : Manager) : Prop where
  isDead : s'.isDead = s.isDead
  session : s'.session = s.session
  map : s'.map = s.map
  source : ∀ p, SameFile (s.source p) (s'.source p)

theorem SameFile.refl (f : TrackedFile) : SameFile f f := ⟨rfl, rfl, rfl, rfl⟩

theorem SameFile.trans {f f' f'' : TrackedFile} (h : SameFile f f') (h' : SameFile f' f'') :
    SameFile f f'' :=
  ⟨h'.fullPath.trans h.fullPath, h'.referenceCount.trans h.referenceCount,
    h'.unlinked.trans h.unlinked, h'.lockedRanges.trans h.lockedRanges⟩

theorem Alike.of_source {s s' : Manager} (hdead : s'.isDead = s.isDead)
    (hsession : s'.session = s.session) (hmap : s'.map = s.map) (hsource : s'.source = s.source) :
    Alike s s' := by
  refine ⟨hdead, hsession, hmap, fun p => ?_⟩
  rw [hsource]
  exact SameFile.refl _

theorem Alike.refl (s : Manager) : Alike s s := Alike.of_source rfl rfl rfl rfl

theorem Alike.trans {s s' s'' : Manager} (h : Alike s s') (h' : Alike s' s'') : Alike s s'' :=
  ⟨h'.isDead.trans h.isDead, h'.session.trans h.session, h'.map.trans h.map,
    fun p => (h.source p).trans (h'.source p)⟩

theorem alike_after {α : Type} (s : Manager) (r : Except Errno α) : Alike s (s.after r) := by
  cases r with
  | ok v => exact Alike.refl s
  | error e => exact Alike.of_source rfl rfl rfl rfl

theorem alike_backupError (s : Manager) (errnum : Int) (text : String) :
    Alike s (s.backupError errnum text) :=
  Alike.of_source rfl rfl rfl rfl

theorem alike_modify {s : Manager} {file : Ptr} {f : TrackedFile → TrackedFile}
    (h : SameFile (s.source file) (f (s.source file))) : Alike s (s.modify file f) := by
  refine ⟨rfl, rfl, rfl, fun p => ?_⟩
  by_cases hp : p = file
  · subst hp
    rw [Manager.source_modify_self]
    exact h
  · rw [Manager.source_modify_ne s hp]
    exact SameFile.refl _

theorem alike_next {o : Op} (ho : o.light = true) (s : Manager) (r : o.Answer) :
    Alike s (Op.next o s r) := by
  cases o with
  | realpath site path => exact alike_after s r
  | fstat fd => exact alike_after s r
  | backup c => exact alike_after s r
  | setErrno e => exact Alike.of_source rfl rfl rfl rfl
  | backupError n text => exact alike_backupError s n text
  | setDestination file d =>
    exact @alike_modify s file (fun f => { f with destinationFile := d }) ⟨rfl, rfl, rfl, rfl⟩
  | real c => cases ho
  | tableGet path => cases ho
  | fatalError n text => cases ho
  | mapPut fd source => cases ho
  | mapErase fd => cases ho
  | incrementOffset fd n => cases ho
  | seekDescription fd n => cases ho
  | lockRange file r => cases ho
  | unlockRange file r => cases ho
  | newFile path => cases ho
  | setName file n => cases ho
  | addReference file => cases ho
  | dropReference file => cases ho
  | setUnlinked file => cases ho
  | _ => exact Alike.refl s

/-- The program performs light operations only, and always returns. -/
abbrev Light {α : Type} (p : CallM α) : Prop := Only (fun o => o.light = true) p

/-- What happens in a light program. -/
theorem Light.all {α : Type} {p : CallM α} (h : Light p) (s : Manager) :
    All managerHandler p s fun es x s' =>
      Alike s s' ∧ (∀ e ∈ es, e.1.light = true) ∧ ∃ a, x = .ok a :=
  Only.all h Alike.refl (fun _ _ _ => Alike.trans) (fun _ _ r ho _ => alike_next ho _ r) s

/-! ## Light programs -/

theorem light_onlyIf {c : Prop} [Decidable c] {body : CallM Unit} (h : Light body) :
    Light (onlyIf c body) := by
  unfold onlyIf
  split
  · exact h
  · exact only_pure _

theorem light_reportNoMemory (e : Errno) (text : String) : Light (reportNoMemory e text) :=
  light_onlyIf (only_last rfl)

theorem light_tryToRemoveDestination (file : Ptr) : Light (tryToRemoveDestination file) := by
  unfold tryToRemoveDestination
  refine only_call rfl fun d => ?_
  split
  · exact only_pure _
  · refine only_call rfl fun (n : Nat) => ?_
    split
    · exact only_pure _
    · refine only_call rfl fun r => ?_
      split
      · exact only_call rfl fun _ => only_last rfl
      · exact only_last rfl

theorem light_tryToCreateDestinationFile (file : Ptr) (full_path : Path) :
    Light (tryToCreateDestinationFile file full_path) := by
  unfold tryToCreateDestinationFile
  refine only_call rfl fun (b : Bool) => ?_
  split
  · exact only_pure _
  · refine only_call rfl fun d => ?_
    split
    · exact only_pure _
    · refine only_call rfl fun r => ?_
      split
      · exact only_pure _
      · exact only_call rfl fun _ => only_pure _

theorem light_pwriteLoop (d : DestinationFile) (buf : List UInt8) (fuel nbyte : Nat)
    (offset : Int) :
    Light (pwriteLoop d buf fuel nbyte offset) := by
  induction fuel generalizing nbyte offset with
  | zero => exact only_pure _
  | succ fuel ih =>
    rw [pwriteLoop]
    split
    · exact only_pure _
    · refine only_call rfl fun r => ?_
      split
      · exact only_call rfl fun _ => only_pure _
      · split
        · exact only_call rfl fun _ => only_pure _
        · exact ih _ _

theorem light_destinationTruncate (d : DestinationFile) (length : Int) :
    Light (destinationTruncate d length) := by
  unfold destinationTruncate
  refine only_call rfl fun r => ?_
  split
  · exact only_call rfl fun _ => only_pure _
  · exact only_pure _

theorem light_destinationUnlink (d : DestinationFile) : Light (destinationUnlink d) := by
  unfold destinationUnlink
  refine only_call rfl fun r => ?_
  split
  · exact only_call rfl fun _ => only_pure _
  · exact only_pure _

theorem light_destinationRename (file : Ptr) (d : DestinationFile) (new_path : Path) :
    Light (destinationRename file d new_path) := by
  unfold destinationRename
  refine only_call rfl fun r => ?_
  split
  · split
    · exact only_call rfl fun _ => only_pure _
    · exact only_call rfl fun _ => only_pure _
  · exact only_call rfl fun _ => only_pure _

theorem light_createSubdirectories (directories : List Path) :
    Light (createSubdirectories directories) := by
  induction directories with
  | nil => exact only_pure _
  | cons directory rest ih =>
    rw [createSubdirectories, OpenPath.createSubdirectories]
    refine only_call rfl fun r => ?_
    split
    · split
      · exact ih
      · exact only_pure _
    · exact ih

theorem light_openPath (file_path : Path) : Light (openPath file_path) := by
  rw [openPath, OpenPath.openPath]
  refine only_call rfl fun r => ?_
  split
  · exact only_pure _
  · split
    · exact light_createSubdirectories _
    · exact only_pure _

theorem light_isPrefix (D : DirectorySet) (file : Path) : Light (isPrefix D file) := by
  unfold isPrefix
  refine only_call rfl fun r => ?_
  split
  · exact only_pure _
  · exact only_pure _

theorem light_withSession {body : DirectorySet → CallM Unit} (h : ∀ D, Light (body D)) :
    Light (withSession body) := by
  unfold withSession
  refine only_call rfl fun _ => only_call rfl fun D => ?_
  split
  · exact only_last rfl
  · exact Only.bind (h _) fun _ => only_last rfl

theorem light_captureWrite (file : Ptr) (buf : List UInt8) (offset : Int) (D : DirectorySet) :
    Light (captureWrite file buf offset D) := by
  unfold captureWrite
  refine only_call rfl fun d => ?_
  split
  · exact only_pure _
  · exact Only.bind (light_pwriteLoop _ _ _ _ _) fun _ => only_pure _

theorem light_captureFtruncate (file : Ptr) (length : Int) (D : DirectorySet) :
    Light (captureFtruncate file length D) := by
  unfold captureFtruncate
  refine only_call rfl fun d => ?_
  split
  · exact only_pure _
  · exact Only.bind (light_destinationTruncate _ _) fun _ => only_pure _

theorem light_captureTruncate (destination_file : Path) (length : Int) :
    Light (captureTruncate destination_file length) := by
  unfold captureTruncate
  refine only_call rfl fun (b : Bool) => ?_
  split
  · refine only_call rfl fun r => ?_
    split
    · exact light_onlyIf (only_last rfl)
    · exact only_pure _
  · exact only_pure _

theorem light_unlinkDestination (dest : DestinationFile) :
    Light (captureUnlink.unlinkDestination dest) := by
  unfold captureUnlink.unlinkDestination
  refine Only.bind (light_destinationUnlink _) fun r => ?_
  split
  · exact only_call rfl fun _ => only_call rfl fun _ => only_pure _
  · exact only_pure _

/-- A path in a source directory is translated. -/
theorem translate_eq {D : DirectorySet} {file : Path} (h : D.isPrefixOfRealpath file = true) :
    ∃ path, translatePrefixOfRealpath D file = pure path := by
  obtain ⟨path, hpath⟩ := D.translate_of_prefix h
  refine ⟨path, ?_⟩
  unfold translatePrefixOfRealpath
  rw [hpath]

/-! ## References and locked ranges -/

/-- The reference that the caller of `get_or_create` holds. -/
def referenced (s : Manager) (file : Ptr) : Manager :=
  s.modify file fun f => { f with referenceCount := f.referenceCount + 1 }

theorem referenced_self (s : Manager) (file : Ptr) : (referenced s file).source file =
    { s.source file with referenceCount := (s.source file).referenceCount + 1 } :=
  Manager.source_modify_self _ _ _

/-- A reference to the file is given back. -/
def released (s : Manager) (file : Ptr) : Manager :=
  s.modify file fun f => { f with referenceCount := f.referenceCount - 1 }

theorem released_self (s : Manager) (file : Ptr) : ((released s file).source file).referenceCount =
      (s.source file).referenceCount - 1 ∧
    ((released s file).source file).fullPath = (s.source file).fullPath := by
  unfold released
  rw [Manager.source_modify_self]
  exact ⟨rfl, rfl⟩

/-- The range is locked. -/
def lockedRange (s : Manager) (file : Ptr) (g : Range) : Manager :=
  s.modify file fun f => { f with lockedRanges := f.lockedRanges ++ [g] }

/-- The range is given back. -/
def unlockedRange (s : Manager) (file : Ptr) (g : Range) : Manager :=
  s.modify file fun f => { f with
    lockedRanges := (TokuBackup.unlockRange f.lockedRanges g).getD f.lockedRanges }

/-- A range that is locked is found. -/
theorem unlockRange_found {s : Manager} {file : Ptr} {g : Range}
    (hmem : g ∈ (s.source file).lockedRanges) :
    Op.reply (.unlockRange file g) s = some true := by
  obtain ⟨l, hl, -⟩ := unlockRange_of_mem hmem
  change some (TokuBackup.unlockRange (s.source file).lockedRanges g).isSome = some true
  rw [hl]
  rfl

theorem mem_lockedRange (s : Manager) (file : Ptr) (g : Range) :
    g ∈ ((lockedRange s file g).source file).lockedRanges := by
  unfold lockedRange
  rw [Manager.source_modify_self]
  exact List.mem_append_right _ (List.mem_singleton.mpr rfl)

/-- Giving back a reference that is counted. -/
theorem all_removeReference {s : Manager} {file : Ptr}
    {Q : List Event → Except Fault Unit → Manager → Prop}
    (hcount : 0 < (s.source file).referenceCount) (hQ : Q [] (.ok ()) (released s file)) :
    All managerHandler (removeReference file) s Q := by
  unfold removeReference
  refine all_reply (r := (s.source file).referenceCount) rfl ?_
  change All managerHandler (if (s.source file).referenceCount > 0 then _ else _) s Q
  rw [if_pos hcount]
  exact all_reply (r := ()) rfl hQ

/-- Giving back a range that is locked. -/
theorem all_unlockRange {s : Manager} {file : Ptr} {g : Range}
    {Q : List Event → Except Fault Bool → Manager → Prop}
    (hmem : g ∈ (s.source file).lockedRanges) (hQ : Q [] (.ok true) (unlockedRange s file g)) :
    All managerHandler (unlockRangeReporting file g) s Q := by
  unfold unlockRangeReporting
  exact all_reply (unlockRange_found hmem) hQ

end TokuBackup.Interpose
