import TokuBackup.Interpose.Inner
import TokuBackup.Locking.Model

/-!
# The locks of the calls

Every interposed call takes its locks in order: whatever a thread holds when it waits for a
lock stands above that lock. `Short b p` says so of a part of a call, for a thread that holds
nothing below `b`.
-/

namespace TokuBackup.Locking

open Kernel Table Lib Prog Interpose
open DoBackup (Errno)

/-- A part of a call that waits for locks below `b`, and gives them back. -/
abbrev Short {α : Type} (b : Nat) (p : CallM α) : Prop := Brief order lockEvents b p

section

variable {α β : Type} {b : Nat}

theorem short_of_inner {p : CallM α} (h : Inner p) : Short b p := by
  intro held _
  refine Performs.obeys h fun o ho => ?_
  have hnone : lockEvents o = [] := by
    cases o with
    | lock l => cases ho
    | unlock l => cases ho
    | rdlock => cases ho
    | rdunlock => cases ho
    | mapGet fd => cases ho
    | mapPut fd source => cases ho
    | mapErase fd => cases ho
    | lockRange file r => cases ho
    | unlockRange file r => cases ho
    | setFlags file flags => cases ho
    | addToTodo path => cases ho
    | _ => rfl
  refine ⟨?_, fun r => ?_⟩
  · change order.Ordered held (lockEvents o)
    rw [hnone]
    trivial
  · change (lockEvents o).foldl LockEvent.after held = held
    rw [hnone]
    rfl

theorem short_onlyIf {c : Prop} [Decidable c] {body : CallM Unit} (h : Short b body) :
    Short b (onlyIf c body) := by
  unfold onlyIf
  split
  · exact h
  · exact brief_pure ()

/-- A part without locks. -/
theorem obeys_inner {p : CallM α} {f : α → CallM β} {held : List HeldLock}
    {Q : β → List HeldLock → Prop} (h : Inner p)
    (hf : ∀ a, Obeys (order.monitor Op.Answer lockEvents) (f a) held Q) :
    Obeys (order.monitor Op.Answer lockEvents) (p >>= f) held Q :=
  (short_of_inner (b := 0) h).obeys (fun _ _ => Nat.zero_le _) hf

/-! ## Under the table's mutex -/

theorem short_tableRename (target : Ptr) (new_source_name dest : Path) :
    Short 1 (tableRename target new_source_name dest) := by
  unfold tableRename
  refine brief_lock rfl Nat.one_pos fun _ held _ => ?_
  refine obeys_inner (inner_tableRemove target) fun _ => ?_
  refine obeys_inner (inner_sourceFileRename target new_source_name) fun r => ?_
  split
  · exact obeys_free rfl fun _ => obeys_release_head rfl fun _ => rfl
  · refine obeys_free rfl fun d => ?_
    split
    · trivial
    · refine obeys_inner (inner_destinationRename target _ dest) fun r => ?_
      split
      · exact obeys_free rfl fun _ => obeys_release_head rfl fun _ => rfl
      · exact obeys_free rfl fun _ => obeys_release_head rfl fun _ => rfl

theorem short_renameLocked (old_path new_path old_dest dest_path : Path) :
    Short 2 (renameLocked old_path new_path old_dest dest_path) := by
  unfold renameLocked
  refine brief_lock rfl (by decide) fun _ held hheld => ?_
  refine obeys_inner (inner_getOrCreate old_path) fun target => ?_
  refine obeys_inner (inner_tryToCreateDestinationFile target old_dest) fun r => ?_
  split
  · exact obeys_release_head rfl fun _ => rfl
  · refine (short_tableRename target new_path dest_path).obeys
      (above_cons (Nat.le_refl 1) hheld (by decide)) fun r => ?_
    exact obeys_inner (inner_tryToRemove target) fun _ => obeys_release_head rfl fun _ => rfl

theorem short_finishUnlink (source : Ptr) : Short 1 (finishUnlink source) := by
  unfold finishUnlink
  refine brief_lock rfl Nat.one_pos fun _ held _ => obeys_free rfl fun _ => ?_
  refine obeys_inner (inner_tryToRemoveDestination source) fun _ =>
    obeys_release_head rfl fun _ => ?_
  exact Obeys.mono
    (short_of_inner (b := 0) (inner_tryToRemove source) held fun _ _ => Nat.zero_le _)
    fun _ _ h => h

theorem short_unlinkSection (full_path : Path) (source : Ptr) :
    Short 1 (unlinkSection full_path source) := by
  have hshould : Short 1 (shouldCaptureUnlinkOfFile full_path) := by
    unfold shouldCaptureUnlinkOfFile
    refine brief_call rfl fun D => ?_
    split
    · exact brief_pure _
    · refine brief_call rfl fun b => ?_
      split
      · split
        · exact brief_pure _
        · exact brief_pure _
      · exact brief_pure _
  unfold unlinkSection
  refine hshould.bind fun D => ?_
  split
  · exact short_finishUnlink source
  · refine (short_of_inner (inner_captureUnlink _ _ _)).bind fun done => ?_
    split
    · exact short_finishUnlink source
    · exact brief_pure ()

/-! ## In a session -/

/-- A block under the session lock, which is held as a reader. -/
theorem short_withSession {body : DirectorySet → CallM Unit} (h : ∀ D, Short 4 (body D)) :
    Short 4 (withSession body) := by
  unfold withSession
  refine brief_lock rfl (by decide) fun _ held hheld => obeys_free rfl fun D => ?_
  split
  · exact obeys_release_last rfl
  · exact (h _).obeys (above_cons (by decide) hheld (Nat.le_refl 4)) fun _ => obeys_release_last rfl

theorem short_openCapture (fd : Nat) (file : Path) (D : DirectorySet) :
    Short 3 (openCapture fd file D) := by
  unfold openCapture
  refine brief_momentary rfl (by decide) fun (source : Option Ptr) => ?_
  cases source with
  | none => exact brief_fail _
  | some source =>
    refine brief_lock rfl (by decide) fun _ held hheld => ?_
    refine obeys_acquire rfl ?_ fun _ => ?_
    · exact above_cons (Nat.le_refl 1) hheld (Nat.le_add_left 1 2)
    refine obeys_inner (inner_captureOpen D file) fun ⟨r, backup_file_name⟩ => ?_
    have hend : Obeys (order.monitor Op.Answer lockEvents)
        (Interpose.unlock (.nameRead source) >>= fun _ => Interpose.unlock .table : CallM Unit)
        (.nameRead source :: .table :: held) fun _ held' => held' = held :=
      obeys_release_head rfl fun _ => obeys_release_last rfl
    dsimp only
    split
    · exact hend
    · split
      · exact hend
      · refine obeys_inner (inner_tryToCreateDestinationFile _ _) fun r => ?_
        split
        · exact obeys_free rfl fun _ => hend
        · exact hend

theorem short_captureRename (full_old_path newpath : Path) (D : DirectorySet) :
    Short 2 (captureRename full_old_path newpath D) := by
  unfold captureRename
  refine brief_call rfl fun r => ?_
  split
  · exact short_of_inner (inner_reportNoMemory _ _)
  · split
    · refine (short_of_inner (inner_translatePrefixOfRealpath D _)).bind fun old => ?_
      refine (short_of_inner (inner_translatePrefixOfRealpath D _)).bind fun new => ?_
      refine (short_renameLocked _ _ _ _).bind fun r => ?_
      split
      · exact brief_pure ()
      · exact brief_momentary (f := fun _ => pure ()) rfl (by decide) fun _ => brief_pure ()
    · exact brief_pure ()

/-- A range is given back. -/
theorem obeys_unlockRange {file : Ptr} {r : Range} {f : Bool → CallM β} {held : List HeldLock}
    {Q : β → List HeldLock → Prop}
    (hf : ∀ a, Obeys (order.monitor Op.Answer lockEvents) (f a) held Q) :
    Obeys (order.monitor Op.Answer lockEvents) (unlockRangeReporting file r >>= f)
      (.range file r :: held) Q := by
  have hback : Obeys (order.monitor Op.Answer lockEvents) (unlockRangeReporting file r)
      (.range file r :: held) fun _ held' => held' = held := by
    unfold unlockRangeReporting
    refine obeys_release_head rfl fun found => ?_
    split
    · rfl
    · exact obeys_free rfl fun _ => rfl
  refine Obeys.bind hback fun a held' h => ?_
  subst h
  exact hf a

/-- `truncate` waits for its range inside the session. -/
theorem short_truncateInSession (path full_path destination_file : Path) (length : Int) :
    Short 5 (truncateInSession path full_path destination_file length) := by
  unfold truncateInSession
  refine brief_lock rfl (by decide) fun _ held hheld => obeys_free rfl fun found => ?_
  split
  · trivial
  · refine obeys_free rfl fun _ => obeys_release_head rfl fun _ => ?_
    refine obeys_acquire rfl (fun h hh => hheld h hh) fun _ => obeys_free rfl fun r => ?_
    refine obeys_inner (inner_onlyIf (inner_captureTruncate _ _)) fun _ => ?_
    refine obeys_unlockRange fun unlocked => obeys_inner (inner_removeReference _) fun _ => ?_
    split
    · rfl
    · exact obeys_free rfl fun _ => rfl

/-! ## The manager -/

theorem short_managerOpen (fd : Nat) (file : Path) (flags : Nat) :
    Short 4 (managerOpen fd file flags) := by
  have hsetup : Short 4 (setupDescriptionAndSourceFile fd file flags) := by
    unfold setupDescriptionAndSourceFile
    refine brief_call rfl fun r => ?_
    split
    · exact brief_call rfl fun _ => brief_pure _
    · refine brief_lock rfl (by decide) fun _ held hheld => ?_
      refine obeys_inner (inner_getOrCreate _) fun source => ?_
      refine Brief.obeys (b := 1) (brief_momentary (f := fun _ => pure ()) rfl Nat.one_pos
        fun _ => brief_pure ()) (above_cons (Nat.le_refl 1) hheld (Nat.le_add_left 1 3)) fun _ => ?_
      have hput : Short 4 (Interpose.mapPut fd source >>= fun _ => (pure 0 : CallM Int)) :=
        brief_momentary rfl (by decide) fun _ => brief_pure _
      exact obeys_release_head rfl fun _ => hput held hheld
  have htracked : Short 4 (openTracked fd file flags) := by
    unfold openTracked
    refine hsetup.bind fun result => ?_
    split
    · exact brief_pure ()
    · exact short_withSession fun D => (short_openCapture fd file D).mono (by decide)
  unfold managerOpen
  refine brief_call rfl fun r => ?_
  split
  · exact brief_call rfl fun _ => htracked
  · exact htracked
  · exact brief_pure ()

theorem short_managerClose (fd : Nat) : Short 4 (managerClose fd) := by
  unfold managerClose
  refine brief_momentary rfl (by decide) fun source => ?_
  split
  · exact brief_pure ()
  · refine (short_withSession fun _ => ?_).bind fun _ => brief_momentary rfl (by decide) fun _ => ?_
    · refine brief_lock rfl (by decide) fun _ held _ => ?_
      exact obeys_inner (inner_tryToRemoveDestination _) fun _ => obeys_release_last rfl
    · refine brief_lock rfl (by decide) fun _ held _ => ?_
      exact obeys_inner (inner_tryToRemove _) fun _ => obeys_release_last rfl

/-- `write` waits for its range with the description locked, and for the session with the
range. -/
theorem short_managerWrite (fd : Nat) (buf : List UInt8) : Short 6 (managerWrite fd buf) := by
  unfold managerWrite
  refine brief_momentary rfl (by decide) fun file => ?_
  split
  · exact brief_call rfl fun _ => brief_pure _
  · rename_i file
    refine brief_lock rfl (Nat.lt_succ_self 5) fun _ held hheld => ?_
    refine obeys_free rfl fun lock_start => obeys_acquire rfl ?_ fun _ => obeys_free rfl fun r => ?_
    · exact above_cons (Nat.le_refl 5) hheld (Nat.le_succ 5)
    refine obeys_inner (inner_onlyIf (inner_last rfl)) fun _ => obeys_release rfl fun _ => ?_
    -- the description is given back before the range
    change Obeys _ _ (List.erase (_ :: .description fd :: held) (.description fd)) _
    rw [List.erase_cons_tail (by simp), List.erase_cons_head]
    refine (short_withSession fun D => short_of_inner (inner_captureWrite _ _ _ D)).obeys
      (above_cons (Nat.le_refl 4) hheld (Nat.le_add_left 4 2)) fun _ => ?_
    exact obeys_unlockRange fun _ => rfl

theorem short_managerRead (fd nbyte : Nat) : Short 6 (managerRead fd nbyte) := by
  unfold managerRead
  refine brief_momentary rfl (by decide) fun file => ?_
  split
  · exact brief_call rfl fun _ => brief_pure _
  · refine brief_lock rfl (Nat.lt_succ_self 5) fun _ held _ => obeys_free rfl fun r => ?_
    exact obeys_inner (inner_onlyIf (inner_last rfl)) fun _ => obeys_release_head rfl fun _ => rfl

theorem short_managerPwrite (fd : Nat) (buf : List UInt8) (offset : Int) :
    Short 6 (managerPwrite fd buf offset) := by
  unfold managerPwrite
  refine brief_momentary rfl (by decide) fun file => ?_
  split
  · exact brief_call rfl fun _ => brief_pure _
  · refine brief_lock rfl (show 4 < 6 by decide) fun _ held hheld => obeys_free rfl fun r => ?_
    dsimp only
    split
    · exact obeys_free rfl fun e => obeys_unlockRange fun _ => obeys_free rfl fun _ => rfl
    · refine (short_onlyIf (short_withSession fun D =>
        short_of_inner (inner_captureWrite _ _ _ D))).obeys
        (above_cons (Nat.le_refl 4) hheld (Nat.le_add_left 4 2)) fun _ => ?_
      exact obeys_unlockRange fun _ => rfl

theorem short_managerLseek (fd : Nat) (offset : Int) (whence : Nat) :
    Short 6 (managerLseek fd offset whence) := by
  unfold managerLseek
  refine brief_momentary rfl (by decide) fun file => ?_
  split
  · exact brief_call rfl fun _ => brief_pure _
  · refine brief_lock rfl (Nat.lt_succ_self 5) fun _ held _ => obeys_free rfl fun r => ?_
    exact obeys_free rfl fun _ => obeys_release_head rfl fun _ => rfl

theorem short_managerFtruncate (fd : Nat) (length : Int) :
    Short 6 (managerFtruncate fd length) := by
  unfold managerFtruncate
  refine brief_momentary rfl (by decide) fun file => ?_
  split
  · exact brief_call rfl fun _ => brief_pure _
  · refine brief_lock rfl (show 4 < 6 by decide) fun _ held hheld => obeys_free rfl fun r => ?_
    dsimp only
    split
    · refine (short_withSession fun D => short_of_inner (inner_captureFtruncate _ _ D)).obeys
        (above_cons (Nat.le_refl 4) hheld (Nat.le_add_left 4 2)) fun _ => ?_
      exact obeys_unlockRange fun _ => rfl
    · exact obeys_free rfl fun e => obeys_unlockRange fun _ => obeys_free rfl fun _ => rfl

theorem short_managerRename (oldpath newpath : Path) : Short 4 (managerRename oldpath newpath) := by
  unfold managerRename
  refine brief_call rfl fun r => ?_
  split
  · exact (short_of_inner (inner_reportNoMemory _ _)).bind fun _ =>
      brief_call rfl fun _ => brief_pure _
  · refine brief_call rfl fun r => ?_
    refine (short_onlyIf (short_withSession fun D => ?_)).bind fun _ => brief_pure _
    exact (short_captureRename _ _ D).mono (by decide)

theorem short_managerUnlink (path : Path) : Short 4 (managerUnlink path) := by
  unfold managerUnlink
  refine brief_call rfl fun r => ?_
  split
  · exact (short_of_inner (inner_reportNoMemory _ _)).bind fun _ =>
      brief_call rfl fun _ => brief_pure _
  · refine brief_call rfl fun r => ?_
    dsimp only
    split
    · exact brief_pure _
    · refine brief_lock rfl (by decide) fun _ held hheld => ?_
      refine obeys_inner (inner_getOrCreate _) fun source => obeys_release_head rfl fun _ => ?_
      refine obeys_acquire rfl (fun h hh => hheld h hh) fun _ => obeys_acquire rfl ?_ fun _ => ?_
      · exact above_cons (by decide) hheld (by decide)
      refine (short_unlinkSection _ source).obeys ?_ fun _ => ?_
      · have hsession : ∀ h ∈ HeldLock.sessionRead :: held, 4 ≤ h.heldRank :=
          above_cons (by decide) hheld (Nat.le_refl 4)
        exact above_cons (Nat.le_refl 1) hsession (by decide)
      exact obeys_release_head rfl fun _ => obeys_release_head rfl fun _ => rfl

theorem short_managerTruncate (path : Path) (length : Int) :
    Short 5 (managerTruncate path length) := by
  unfold managerTruncate
  refine brief_call rfl fun r => ?_
  split
  · exact brief_call rfl fun _ => brief_call rfl fun _ => brief_pure _
  · refine brief_lock rfl (by decide) fun _ held hheld => obeys_free rfl fun D => ?_
    split
    · split
      · refine obeys_inner (inner_translatePrefixOfRealpath _ _) fun destination_file => ?_
        refine (short_truncateInSession _ _ _ _).obeys
          (above_cons (Nat.le_refl 5) hheld (Nat.le_refl 5)) fun user_error => ?_
        exact obeys_release_head rfl fun _ => rfl
      · exact obeys_free rfl fun r => obeys_release_head rfl fun _ => rfl
    · exact obeys_free rfl fun r => obeys_release_head rfl fun _ => rfl

theorem short_managerMkdir (pathname : Path) : Short 4 (managerMkdir pathname) := by
  unfold managerMkdir
  refine brief_lock rfl (by decide) fun _ held _ => obeys_free rfl fun D => ?_
  split
  · exact obeys_release_last rfl
  · refine obeys_inner (inner_captureMkdir _ pathname) fun r => ?_
    split
    · exact obeys_free rfl fun _ => obeys_release_last rfl
    · exact obeys_release_last rfl

/-! ## The public API -/

theorem short_ifAlive {method : CallM Unit} (h : Short b method) : Short b (ifAlive method) := by
  unfold ifAlive
  refine brief_call rfl fun alive => ?_
  split
  · exact h
  · exact brief_pure ()

theorem short_whenAlive {c : AppCall} {method : CallM Int} (h : Short b method) :
    Short b (whenAlive c method) := by
  unfold whenAlive
  refine brief_call rfl fun alive => ?_
  split
  · exact h
  · exact brief_call rfl fun _ => brief_pure _

/-- A method under `m_atomic_file_op_mutex`. -/
theorem short_fileOp {method : CallM α} (h : Short 4 method) :
    Short 7 (Interpose.lock .fileOp >>= fun _ => method >>= fun r =>
      Interpose.unlock .fileOp >>= fun _ => pure r) := by
  refine brief_lock rfl (by decide) fun _ held hheld => ?_
  refine h.obeys (above_cons (by decide) hheld (by decide)) fun r => ?_
  exact obeys_release_head rfl fun _ => rfl

theorem short_interposedOpen (file : Path) (oflag : Nat) (creat : Bool) (mode : Option Nat) :
    Short 7 (interposedOpen file oflag creat mode) := by
  have hopen : ∀ fd : Int, Short 4 (ifAlive (managerOpen fd.toNat file oflag)) :=
    fun fd => short_ifAlive (short_managerOpen fd.toNat file oflag)
  unfold interposedOpen
  split
  · refine brief_lock rfl (by decide) fun _ held hheld => obeys_free rfl fun r => ?_
    refine (short_onlyIf (hopen _)).obeys (above_cons (by decide) hheld (by decide)) fun _ => ?_
    exact obeys_release_head rfl fun _ => rfl
  · refine brief_call rfl fun r => ?_
    dsimp only
    split
    · refine brief_call rfl fun kind => ?_
      split
      · exact brief_pure _
      · exact ((short_onlyIf (hopen _)).mono (by decide)).bind fun _ => brief_pure _
    · exact brief_pure _

/-- Every interposed call takes its locks in order. -/
theorem short_interposed (c : AppCall) : Short 7 (interposed c) := by
  cases c with
  | openFile file oflag creat mode => exact short_interposedOpen file oflag creat mode
  | close fd =>
    exact ((short_ifAlive (short_managerClose fd)).mono (by decide)).bind fun _ =>
      brief_call rfl fun _ => brief_pure _
  | read fd nbyte => exact (short_whenAlive (short_managerRead fd nbyte)).mono (by decide)
  | write fd buf => exact (short_whenAlive (short_managerWrite fd buf)).mono (by decide)
  | pwrite fd buf offset =>
    exact (short_whenAlive (short_managerPwrite fd buf offset)).mono (by decide)
  | lseek fd offset whence =>
    exact (short_whenAlive (short_managerLseek fd offset whence)).mono (by decide)
  | ftruncate fd length =>
    exact (short_whenAlive (short_managerFtruncate fd length)).mono (by decide)
  | truncate path length =>
    exact (short_whenAlive (short_managerTruncate path length)).mono (by decide)
  | rename oldpath newpath =>
    exact short_whenAlive (short_fileOp (short_managerRename oldpath newpath))
  | unlink path => exact short_whenAlive (short_fileOp (short_managerUnlink path))
  | mkdir pathname mode =>
    refine brief_call rfl fun r => ?_
    exact ((short_onlyIf (short_ifAlive (short_managerMkdir pathname))).mono
      (by decide)).bind fun _ =>
      brief_pure _

end

end TokuBackup.Locking
