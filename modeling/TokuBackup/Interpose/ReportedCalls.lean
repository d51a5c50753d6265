import TokuBackup.Interpose.Reported

/-!
# Which calls report the failures of their capture

The pieces of the interposed calls, from the destination files up, as loud, quiet or
accounted programs, and the main result for every call.
-/

namespace TokuBackup.Interpose

open Kernel Table Lib Prog
open DoBackup (Errno)

/-- The calls on the backup that some call of the application lets fail silently. -/
def BackupCall.hushable : BackupCall → Bool
  | .stat _ => true
  | .mkdir _ => true
  | .openFile _ => true
  | _ => false

/-- The calls of `open_path`. -/
def BackupCall.ofOpenPath : BackupCall → Bool
  | .stat _ => true
  | .mkdir _ => true
  | _ => false

/-- The call of `try_to_create_destination_file`. -/
def BackupCall.ofCreate : BackupCall → Bool
  | .openFile _ => true
  | _ => false

theorem hushes_of_hushable (c : AppCall) {b : BackupCall} (hb : b.hushable = false) :
    c.hushes b = false := by
  cases b <;> first | (cases c <;> rfl) | cases hb

theorem not_failed_ok (c : BackupCall) (n : Nat) : ¬ Failed ⟨.backup c, .ok n⟩ := by
  cases c <;> simp [Failed]

section

variable {hushes : BackupCall → Bool} (hh : ∀ c : BackupCall, c.hushable = false → hushes c = false)

include hh

/-! ## Destination files -/

theorem loud_pwriteLoop (d : DestinationFile) (buf : List UInt8) (fuel nbyte : Nat) (offset : Int) :
    Loud hushes False (pwriteLoop d buf fuel nbyte offset) := by
  induction fuel generalizing nbyte offset with
  | zero => exact loud_pure id
  | succ fuel ih =>
    unfold pwriteLoop
    split
    · exact loud_pure id
    · refine loud_backup (hh _ rfl) fun r => ?_
      cases r with
      | error e => exact loud_backupError e.code_ne (loud_pure id)
      | ok wr =>
        dsimp only
        split
        · exact loud_backupError (by decide) (loud_pure id)
        · exact (ih _ _).of_imp fun h => h.elim id (not_failed_ok _ _)

theorem loud_destinationTruncate (d : DestinationFile) (length : Int) :
    Loud hushes False (destinationTruncate d length) := by
  unfold destinationTruncate
  refine loud_backup (hh _ rfl) fun r => ?_
  cases r with
  | error e => exact loud_backupError e.code_ne (loud_pure id)
  | ok n => exact loud_pure fun h => h.elim id (not_failed_ok _ _)

theorem loud_destinationRename (file : Ptr) (d : DestinationFile) (new_path : Path) :
    Loud hushes False (destinationRename file d new_path) := by
  unfold destinationRename
  refine loud_backup (hh _ rfl) fun r => ?_
  cases r with
  | error e =>
    dsimp only
    split
    · rename_i he
      refine loud_step rfl fun _ => loud_pure fun h => ?_
      obtain ⟨e', he', hne⟩ := h.resolve_left id
      cases he'
      exact hne he
    · exact loud_backupError e.code_ne (loud_pure id)
  | ok n => exact loud_step rfl fun _ => loud_pure fun h => h.elim id (not_failed_ok _ _)

theorem loud_unlinkDestination (dest : DestinationFile) :
    Loud hushes False (captureUnlink.unlinkDestination dest) := by
  unfold captureUnlink.unlinkDestination destinationUnlink
  rw [Prog.bind_assoc]
  refine loud_backup (hh _ rfl) fun r => ?_
  cases r with
  | error e =>
    -- reported with the number of the failure, and once more with `errno`
    intro s
    obtain ⟨hmoves, hsome⟩ :=
      @moves_backupError s e.code e.code_ne "Failed unlink of backup file %s"
    change All managerHandler
      (if e.code ≠ 0 then errno >>= fun error =>
        backupError error "Could not unlink backup copy." >>= fun _ => return true
      else return true) (s.backupError e.code "Failed unlink of backup file %s") _
    rw [if_pos e.code_ne]
    have hsame : ∀ t : Manager, t.error.isSome →
      ∀ n text, (t.backupError n text).error = t.error := by
      intro t ht n text
      unfold Manager.backupError
      cases h : t.error with
      | none =>
        rw [h] at ht
        cases ht
      | some x => rfl
    refine ⟨?_, by simp, fun _ _ _ => ?_⟩
    · exact hmoves.trans (Or.inl (hsame _ hsome _ _))
    · exact (hsame _ hsome _ _).symm ▸ hsome
  | ok n => exact loud_pure fun h => h.elim id (not_failed_ok _ _)

/-! ## Source files and their table -/

theorem loud_tryToRemoveDestination (file : Ptr) :
    Loud hushes False (tryToRemoveDestination file) := by
  unfold tryToRemoveDestination
  refine loud_step rfl fun d => ?_
  split
  · exact loud_pure id
  · refine loud_step rfl fun n => ?_
    split
    · exact loud_pure id
    · refine loud_backup (hh _ rfl) fun r => ?_
      cases r with
      | error e => exact loud_backupError e.code_ne (loud_last rfl id)
      | ok n => exact loud_last rfl fun h => h.elim id (not_failed_ok _ _)

omit hh in
theorem loud_removeReference (file : Ptr) : Loud hushes False (removeReference file) := by
  unfold removeReference
  refine loud_step rfl fun (n : Nat) => ?_
  split
  · exact loud_last rfl id
  · exact loud_fail _

omit hh in
theorem loud_tableRemove (file : Ptr) : Loud hushes False (tableRemove file) := by
  unfold tableRemove
  refine loud_step rfl fun n => ?_
  split
  · exact loud_fail _
  · exact loud_last rfl id

omit hh in
theorem mute_getOrCreate (file_name : Path) : Mute (getOrCreate file_name) := by
  unfold getOrCreate
  refine quiet_step rfl fun found => ?_
  split
  · exact quiet_step rfl fun _ => quiet_pure
  · exact quiet_step rfl fun _ => quiet_step rfl fun _ => quiet_step rfl fun _ => quiet_pure

theorem loud_tryToRemove (file : Ptr) : Loud hushes False (tryToRemove file) := by
  unfold tryToRemove
  refine loud_bind (loud_removeReference file) fun _ => loud_step rfl fun n => ?_
  split
  · refine loud_bind (loud_tryToRemoveDestination hh file) fun _ => ?_
    exact loud_bind (loud_tableRemove file) fun _ => loud_last rfl id
  · exact loud_pure id

omit hh in
theorem loud_sourceFileRename (file : Ptr) (new_name : Path) :
    Loud hushes False (sourceFileRename file new_name) := by
  unfold sourceFileRename
  refine loud_step rfl fun r => ?_
  split
  · exact loud_step rfl fun _ => loud_pure id
  · exact loud_step rfl fun _ => loud_pure id

theorem loud_tableRename (target : Ptr) (new_source_name dest : Path) :
    Loud hushes False (tableRename target new_source_name dest) := by
  unfold tableRename
  refine loud_step rfl fun _ => loud_bind (loud_tableRemove target) fun _ => ?_
  refine loud_bind (loud_sourceFileRename target new_source_name) fun r => ?_
  split
  · rename_i hr
    exact loud_backupError hr (loud_step rfl fun _ => loud_pure id)
  · refine loud_step rfl fun d => ?_
    split
    · exact loud_fail _
    · refine loud_bind (loud_destinationRename hh target _ dest) fun r => ?_
      split
      · rename_i hr
        exact loud_backupError hr (loud_step rfl fun _ => loud_pure id)
      · exact loud_step rfl fun _ => loud_step rfl fun _ => loud_pure id

theorem loud_finishUnlink (source : Ptr) : Loud hushes False (finishUnlink source) := by
  unfold finishUnlink
  refine loud_step rfl fun _ => loud_step rfl fun _ => ?_
  refine loud_bind (loud_tryToRemoveDestination hh source) fun _ => ?_
  exact loud_step rfl fun _ => loud_tryToRemove hh source

theorem loud_captureWrite (file : Ptr) (buf : List UInt8) (offset : Int) (D : DirectorySet) :
    Loud hushes False (captureWrite file buf offset D) := by
  unfold captureWrite
  refine loud_step rfl fun d => ?_
  split
  · exact loud_pure id
  · exact loud_bind (loud_pwriteLoop hh _ _ _ _ _) fun _ => loud_pure id

theorem loud_captureFtruncate (file : Ptr) (length : Int) (D : DirectorySet) :
    Loud hushes False (captureFtruncate file length D) := by
  unfold captureFtruncate
  refine loud_step rfl fun d => ?_
  split
  · exact loud_pure id
  · exact loud_bind (loud_destinationTruncate hh _ length) fun _ => loud_pure id

end

section

variable {hushes : BackupCall → Bool} {S : BackupCall → Bool}

theorem loud_unlockRangeReporting (file : Ptr) (r : Range) :
    Loud hushes False (unlockRangeReporting file r) := by
  unfold unlockRangeReporting
  refine loud_step rfl fun found => ?_
  split
  · exact loud_pure id
  · exact loud_fatalError (by decide) (loud_pure id)

theorem loud_withSession {body : DirectorySet → CallM Unit} (h : ∀ D, Loud hushes False (body D)) :
    Loud hushes False (withSession body) := by
  unfold withSession
  refine loud_step rfl fun _ => loud_step rfl fun D => ?_
  split
  · exact loud_last rfl id
  · exact loud_bind (h _) fun _ => loud_last rfl id

/-! ## Creating destinations -/

theorem quiet_createSubdirectories (l : List Path) :
    Quiet BackupCall.ofOpenPath (fun r => r ≠ 0) (createSubdirectories l) := by
  induction l with
  | nil => exact quiet_pure
  | cons directory rest ih =>
    rw [createSubdirectories, OpenPath.createSubdirectories]
    refine quiet_backup rfl (fun r => ?_) fun r hr => ?_
    · split
      · split
        · exact ih
        · exact quiet_pure
      · exact ih
    · obtain ⟨e, rfl, he⟩ := hr
      exact ⟨e.code, if_neg he, e.code_ne⟩

theorem quiet_openPath (file_path : Path) :
    Quiet BackupCall.ofOpenPath (fun r => r ≠ 0) (openPath file_path) := by
  rw [openPath, OpenPath.openPath]
  refine quiet_backup rfl (fun r => ?_) fun r hr => ?_
  · split
    · exact quiet_pure
    · split
      · exact quiet_createSubdirectories _
      · exact quiet_pure
  · obtain ⟨e, rfl, he⟩ := hr
    exact ⟨-1, if_neg he, by decide⟩

theorem quiet_tryToCreateDestinationFile (file : Ptr) (full_path : Path) :
    Quiet BackupCall.ofCreate (fun r => r ≠ 0) (tryToCreateDestinationFile file full_path) := by
  unfold tryToCreateDestinationFile
  refine quiet_step rfl fun u => ?_
  split
  · exact quiet_pure
  · refine quiet_step rfl fun d => ?_
    split
    · exact quiet_pure
    · refine quiet_backup rfl (fun r => ?_) fun r hr => ?_
      · split
        · exact quiet_pure
        · exact quiet_step rfl fun _ => quiet_pure
      · obtain ⟨e, rfl⟩ := hr
        exact ⟨e.code, rfl, e.code_ne⟩

theorem quiet_isPrefix (D : DirectorySet) (file : Path) :
    Quiet S (fun _ => False) (isPrefix D file) := by
  unfold isPrefix
  refine quiet_step rfl fun r => ?_
  split
  · exact quiet_pure
  · exact quiet_pure

theorem quiet_translatePrefixOfRealpath (D : DirectorySet) (absfile : Path) :
    Quiet S (fun _ => False) (translatePrefixOfRealpath D absfile) := by
  unfold translatePrefixOfRealpath
  split
  · exact quiet_pure
  · exact quiet_fail _

theorem quiet_translatePrefix (D : DirectorySet) (file : Path) :
    Quiet S (fun _ => False) (translatePrefix D file) := by
  unfold translatePrefix
  refine quiet_step rfl fun r => ?_
  split
  · exact quiet_fail _
  · exact quiet_translatePrefixOfRealpath D _

theorem quiet_captureOpen (D : DirectorySet) (file : Path) :
    Quiet BackupCall.ofOpenPath (fun r => r.1 ≠ 0) (captureOpen D file) := by
  unfold captureOpen
  refine quiet_bind (quiet_isPrefix D file) fun b => ?_
  split
  · refine quiet_bind (quiet_translatePrefix D file) fun backup_file_name => ?_
    split
    · exact quiet_pure
    · refine quiet_bind_fails (quiet_openPath backup_file_name) (fun r => ?_) fun r hr => ?_
      · split
        · exact quiet_pure
        · exact quiet_pure
      · exact ⟨(r, none), if_pos hr, hr⟩
  · exact quiet_pure

theorem quiet_captureMkdir (D : DirectorySet) (pathname : Path) :
    Quiet BackupCall.ofOpenPath (fun r => r ≠ 0) (captureMkdir D pathname) := by
  unfold captureMkdir
  refine quiet_bind (quiet_isPrefix D pathname) fun b => ?_
  split
  · exact quiet_bind (quiet_translatePrefix D pathname) fun name => quiet_openPath name
  · exact quiet_pure

/-! ## The captured calls -/

section

variable {hushes : BackupCall → Bool}

/-- In `open` the failures of `open_path` are hushed, the one of the creation is reported. -/
theorem accounted_openCapture (fd : Nat) (file : Path) (D : DirectorySet)
    (hpath : ∀ c : BackupCall, c.ofOpenPath = true → hushes c = true)
    (hcreate : ∀ c : BackupCall, c.ofCreate = true → hushes c = false) :
    Accounted hushes (openCapture fd file D) := by
  unfold openCapture
  refine accounted_step rfl fun source => ?_
  split
  · exact (loud_fail _).accounted
  · refine accounted_step rfl fun _ => accounted_step rfl fun _ => ?_
    refine accounted_hushed (quiet_captureOpen D file) hpath (fun a ha => ?_) fun a ha => ?_
    · obtain ⟨r, backup_file_name⟩ := a
      dsimp only at ha ⊢
      rw [if_pos ha]
      exact quiet_step rfl fun _ => quiet_step (f := pure) rfl fun _ => quiet_pure
    · obtain ⟨r, backup_file_name⟩ := a
      dsimp only at ha ⊢
      rw [if_neg ha]
      split
      · exact loud_step rfl fun _ => loud_last rfl id
      · refine loud_quiet_bind (quiet_tryToCreateDestinationFile _ _) hcreate fun r => ?_
        split
        · rename_i hr
          exact loud_backupError hr (loud_step rfl fun _ => loud_last rfl id)
        · rename_i hr
          exact loud_step rfl fun _ => loud_last rfl fun h => h.elim id hr

theorem accounted_withSession {body : DirectorySet → CallM Unit}
    (h : ∀ D, Accounted hushes (body D)) : Accounted hushes (withSession body) := by
  unfold withSession
  refine accounted_step rfl fun _ => accounted_step rfl fun D => ?_
  split
  · exact (loud_last rfl id).accounted
  · exact accounted_bind_mute (h _) fun _ => quiet_step (f := pure) rfl fun _ => quiet_pure

variable (hh : ∀ c : BackupCall, c.hushable = false → hushes c = false)

include hh

/-- In `rename` and `unlink` the failure of the creation is hushed. -/
theorem accounted_renameLocked (old_path new_path old_dest dest_path : Path)
    (hcreate : ∀ c : BackupCall, c.ofCreate = true → hushes c = true) :
    Accounted hushes (renameLocked old_path new_path old_dest dest_path) := by
  unfold renameLocked
  refine accounted_step rfl fun _ =>
    accounted_mute_bind (mute_getOrCreate old_path) fun target => ?_
  refine accounted_hushed (quiet_tryToCreateDestinationFile target old_dest) hcreate
    (fun r hr => ?_) fun r hr => ?_
  · rw [if_pos hr]
    exact quiet_step rfl fun _ => quiet_pure
  · rw [if_neg hr]
    refine loud_bind (loud_tableRename hh target new_path dest_path) fun r => ?_
    exact loud_bind (loud_tryToRemove hh target) fun _ => loud_step rfl fun _ => loud_pure id

theorem accounted_captureRename (full_old_path newpath : Path) (D : DirectorySet)
    (hcreate : ∀ c : BackupCall, c.ofCreate = true → hushes c = true) :
    Accounted hushes (captureRename full_old_path newpath D) := by
  unfold captureRename
  refine accounted_step rfl fun r => ?_
  split
  · exact (loud_reportNoMemory _ _).accounted
  · split
    · refine accounted_mute_bind (quiet_translatePrefixOfRealpath D _) fun old => ?_
      refine accounted_mute_bind (quiet_translatePrefixOfRealpath D _) fun new => ?_
      refine accounted_bind_mute (accounted_renameLocked hh _ _ _ _ hcreate) fun r => ?_
      split
      · exact quiet_pure
      · exact quiet_step (f := pure) rfl fun _ => quiet_pure
    · exact (loud_pure id).accounted

theorem accounted_unlinkSection (full_path : Path) (source : Ptr)
    (hcreate : ∀ c : BackupCall, c.ofCreate = true → hushes c = true) :
    Accounted hushes (unlinkSection full_path source) := by
  have hshould : Mute (shouldCaptureUnlinkOfFile full_path) := by
    unfold shouldCaptureUnlinkOfFile
    refine quiet_step rfl fun D => ?_
    split
    · exact quiet_pure
    · refine quiet_step rfl fun b => ?_
      split
      · split
        · exact quiet_pure
        · exact quiet_pure
      · exact quiet_pure
  have hdealt : ∀ dest, Loud hushes False (do
      if ← captureUnlink.unlinkDestination dest then finishUnlink source else return ()) := by
    intro dest
    refine loud_bind (loud_unlinkDestination hh dest) fun b => ?_
    split
    · exact loud_finishUnlink hh source
    · exact loud_pure id
  unfold unlinkSection
  refine accounted_mute_bind hshould fun D => ?_
  split
  · exact (loud_finishUnlink hh source).accounted
  · unfold captureUnlink
    rw [Prog.bind_assoc]
    refine accounted_step rfl fun d => ?_
    cases d with
    | some dest => exact (hdealt dest).accounted
    | none =>
      dsimp only
      rw [Prog.bind_assoc]
      refine accounted_mute_bind (quiet_translatePrefixOfRealpath _ full_path) fun dest_path => ?_
      rw [Prog.bind_assoc]
      refine accounted_hushed (quiet_tryToCreateDestinationFile source dest_path) hcreate
        (fun r hr => ?_) fun r hr => ?_
      · rw [if_pos hr]
        exact quiet_pure
      · rw [if_neg hr]
        refine loud_step rfl fun d => ?_
        cases d with
        | none => exact loud_fail _
        | some dest => exact hdealt dest

end

end

/-! ## The calls of the manager -/

/-- What a call owes: without hushed failures every failure is reported, and after a hushed
one an error is only there when there was one before or `fstat` has failed. -/
def Verdict {α : Type} (hushes : BackupCall → Bool) (p : CallM α) : Prop :=
  ∀ s, All managerHandler p s fun es x s' =>
    Moves s s' ∧
      (∀ a, x = .ok a → (∀ e ∈ es, ¬ Silent hushes e) → (∃ e ∈ es, Failed e) → s'.error.isSome) ∧
      ((∃ e ∈ es, Silent hushes e) →
        (s'.error.isSome ↔ s.error.isSome ∨ ∃ e ∈ es, FstatFailed e))

section

variable {hushes : BackupCall → Bool} {α β : Type}

theorem Accounted.verdict {p : CallM α} (h : Accounted hushes p) : Verdict hushes p := by
  refine fun s => (h s).mono fun es x s' ⟨hm, hf, ht, hsame⟩ => ⟨hm, ht, fun hs => ?_⟩
  have hnone : ¬ ∃ e ∈ es, FstatFailed e := fun ⟨e, he, hfail⟩ => hf e he hfail
  rw [hsame hs, or_iff_left hnone]

theorem verdict_step {o : Op} {f : o.Answer → CallM β} (ho : o.plain = true)
    (hf : ∀ r, Verdict hushes (f r)) : Verdict hushes (call o >>= f) := by
  intro s
  have hsame : ∀ r, (Op.next o s r).error = s.error := next_error (plain_mute ho) s
  rw [call_bind, all_step]
  split
  · rename_i r hr
    refine (hf r _).mono fun es x s' ⟨hm, ht, hs⟩ => ⟨Moves.trans (Or.inl (hsame r)) hm, ht, ?_⟩
    rw [← hsame r]
    exact hs
  · intro r _
    obtain ⟨hfail, hfstat⟩ := plain_not_failed ho r
    refine (hf r _).mono fun es x s' ⟨hm, ht, hs⟩ =>
      ⟨Moves.trans (Or.inl (hsame r)) hm, fun a ha hsil h => ?_, fun h => ?_⟩
    · rw [List.forall_mem_cons] at hsil
      rw [List.exists_mem_cons_iff] at h
      exact ht a ha hsil.2 (h.resolve_left hfail)
    · rw [List.exists_mem_cons_iff] at h
      rw [List.exists_mem_cons_iff, or_iff_right hfstat, ← hsame r]
      exact hs (h.resolve_left fun hsil => hfail hsil.1)

theorem verdict_bind_mute {p : CallM α} {f : α → CallM β} (hp : Verdict hushes p)
    (hf : ∀ a, Mute (f a)) : Verdict hushes (p >>= f) := by
  intro s
  refine (hp s).bind (fun es e s' h => ⟨h.1, by simp, h.2.2⟩) ?_
  intro es a s' ⟨hm, ht, hs⟩
  refine (hf a s').mono fun es' y s'' ⟨hm', hk, _⟩ => ?_
  have hnot := mute_not_failed hk
  refine ⟨hm.trans (Or.inl hm'), fun b hb hsil h => ?_, fun h => ?_⟩
  · rw [List.forall_mem_append] at hsil
    obtain ⟨e, he, hfail⟩ := h
    rw [hm']
    exact ht a rfl hsil.1
      ⟨e, (List.mem_append.mp he).resolve_right fun he => hnot e he hfail, hfail⟩
  · obtain ⟨e, he, hsil⟩ := h
    have he := (List.mem_append.mp he).resolve_right fun he => hnot e he hsil.1
    rw [hm', hs ⟨e, he, hsil⟩]
    simp only [List.mem_append, or_and_right, exists_or]
    have hnone : ¬ ∃ e ∈ es', FstatFailed e := fun ⟨e, he, hfail⟩ => (hk e he).1 hfail
    rw [or_iff_left hnone]

/-- An `fstat` after whose failure nothing is hushed. -/
theorem verdict_fstat {fd : Nat} {f : Except Errno FdKind → CallM β}
    (herror : ∀ e s, All managerHandler (f (.error e)) (s.after (.error e : Except Errno FdKind))
      fun es x s' => Moves s s' ∧
        (∀ a, x = .ok a → (∃ e ∈ es, Failed e) → s'.error.isSome) ∧
          ((∃ e ∈ es, Silent hushes e) → s'.error.isSome))
    (hok : ∀ kind, Verdict hushes (f (.ok kind))) : Verdict hushes (fstat fd >>= f) := by
  intro s
  refine all_answer rfl fun (r : Except Errno FdKind) _ => ?_
  cases r with
  | error e =>
    refine (herror e s).mono fun es x s' ⟨hm, ht, hs⟩ => ⟨hm, fun a ha _ h => ?_, fun h => ?_⟩
    · rw [List.exists_mem_cons_iff] at h
      exact ht a ha (h.resolve_left id)
    · rw [List.exists_mem_cons_iff] at h
      exact iff_of_true (hs (h.resolve_left fun h => h.1)) (Or.inr ⟨_, List.mem_cons_self, e, rfl⟩)
  | ok kind =>
    have hsilent : ¬ Silent hushes ⟨.fstat fd, Except.ok kind⟩ := fun h => h.1
    have hfstat : ¬ FstatFailed ⟨.fstat fd, Except.ok kind⟩ := by simp [FstatFailed]
    refine (hok kind s).mono fun es x s' ⟨hm, ht, hs⟩ => ⟨hm, fun a ha hsil h => ?_, fun h => ?_⟩
    · rw [List.forall_mem_cons] at hsil
      rw [List.exists_mem_cons_iff] at h
      exact ht a ha hsil.2 (h.resolve_left id)
    · rw [List.exists_mem_cons_iff] at h
      rw [List.exists_mem_cons_iff, or_iff_right hfstat]
      exact hs (h.resolve_left hsilent)

theorem verdict_managerOpen (fd : Nat) (file : Path) (flags : Nat)
    (hpath : ∀ c : BackupCall, c.ofOpenPath = true → hushes c = true)
    (hcreate : ∀ c : BackupCall, c.ofCreate = true → hushes c = false) :
    Verdict hushes (managerOpen fd file flags) := by
  have htracked : Accounted hushes (openTracked fd file flags) := by
    unfold openTracked setupDescriptionAndSourceFile
    rw [Prog.bind_assoc]
    refine accounted_step rfl fun r => ?_
    cases r with
    | error e =>
      dsimp only
      refine Loud.accounted ?_
      change Loud hushes False (backupError e.code "realpath failed on %s" >>= fun _ =>
        if e.code ≠ 0 then return () else withSession (openCapture fd file))
      rw [if_pos e.code_ne]
      exact loud_backupError e.code_ne (loud_pure id)
    | ok full =>
      dsimp only
      rw [Prog.bind_assoc]
      refine accounted_step rfl fun _ => ?_
      rw [Prog.bind_assoc]
      refine accounted_mute_bind (mute_getOrCreate full) fun source => ?_
      refine accounted_step rfl fun _ => accounted_step rfl fun _ => accounted_step rfl fun _ => ?_
      change Accounted hushes
        (if (0 : Int) ≠ 0 then return () else withSession (openCapture fd file))
      rw [if_neg (by simp)]
      exact accounted_withSession fun D => accounted_openCapture fd file D hpath hcreate
  refine verdict_fstat (fun e s => ?_) fun kind => ?_
  · -- the error that is reported here stays
    obtain ⟨hmoves, hsome⟩ := @moves_backupError { s with errno := e.code } e.code e.code_ne
      "Could not stat incoming file %s"
    refine all_reply (r := ()) rfl ((htracked _).mono fun es x s' ⟨hm, _, _, _⟩ => ?_)
    exact ⟨hmoves.trans hm, fun _ _ _ => hm.isSome hsome, fun _ => hm.isSome hsome⟩
  · cases kind with
    | regular => exact htracked.verdict
    | fifo => exact (loud_pure id).accounted.verdict
    | other => exact (loud_pure id).accounted.verdict

theorem verdict_ifAlive {method : CallM Unit} (h : Verdict hushes method) :
    Verdict hushes (ifAlive method) := by
  unfold ifAlive
  refine verdict_step rfl fun b => ?_
  split
  · exact h
  · exact (loud_pure id).accounted.verdict

theorem verdict_onlyIf {c : Prop} [Decidable c] {body : CallM Unit} (h : Verdict hushes body) :
    Verdict hushes (onlyIf c body) := by
  unfold onlyIf
  split
  · exact h
  · exact (loud_pure id).accounted.verdict

theorem verdict_interposedOpen (file : Path) (oflag : Nat) (creat : Bool) (mode : Option Nat)
    (hpath : ∀ c : BackupCall, c.ofOpenPath = true → hushes c = true)
    (hcreate : ∀ c : BackupCall, c.ofCreate = true → hushes c = false) :
    Verdict hushes (interposedOpen file oflag creat mode) := by
  have hopen : ∀ fd, Verdict hushes (ifAlive (managerOpen fd file oflag)) :=
    fun fd => verdict_ifAlive (verdict_managerOpen fd file oflag hpath hcreate)
  unfold interposedOpen
  split
  · refine verdict_step rfl fun _ => verdict_step rfl fun r => ?_
    refine verdict_bind_mute (verdict_onlyIf (hopen _)) fun _ => ?_
    exact quiet_step rfl fun _ => quiet_pure
  · refine verdict_step rfl fun r => ?_
    dsimp only
    split
    · refine verdict_fstat (fun e s => ?_) fun kind => ?_
      · exact ⟨Or.inl rfl, by simp, by simp⟩
      · exact verdict_bind_mute (verdict_onlyIf (hopen _)) fun _ => quiet_pure
    · exact (loud_pure id).accounted.verdict

variable (hh : ∀ c : BackupCall, c.hushable = false → hushes c = false)

include hh

theorem loud_managerClose (fd : Nat) : Loud hushes False (managerClose fd) := by
  unfold managerClose
  refine loud_step rfl fun source => ?_
  split
  · exact loud_pure id
  · refine loud_bind (loud_withSession fun _ => ?_) fun _ => ?_
    · refine loud_step rfl fun _ => loud_bind (loud_tryToRemoveDestination hh _) fun _ => ?_
      exact loud_last rfl id
    · refine loud_step rfl fun _ => loud_step rfl fun _ => ?_
      exact loud_bind (loud_tryToRemove hh _) fun _ => loud_last rfl id

theorem loud_managerWrite (fd : Nat) (buf : List UInt8) :
    Loud hushes False (managerWrite fd buf) := by
  unfold managerWrite
  refine loud_step rfl fun file => ?_
  split
  · exact loud_step rfl fun _ => loud_pure id
  · refine loud_step rfl fun _ => loud_step rfl fun _ => loud_step rfl fun _ => ?_
    refine loud_step rfl fun r => loud_bind (loud_onlyIf fun _ => loud_last rfl id) fun _ => ?_
    refine loud_step rfl fun _ =>
      loud_bind (loud_withSession (loud_captureWrite hh _ _ _)) fun _ => ?_
    exact loud_bind (loud_unlockRangeReporting _ _) fun _ => loud_pure id

omit hh in
theorem loud_managerRead (fd nbyte : Nat) : Loud hushes False (managerRead fd nbyte) := by
  unfold managerRead
  refine loud_step rfl fun file => ?_
  split
  · exact loud_step rfl fun _ => loud_pure id
  · refine loud_step rfl fun _ => loud_step rfl fun r => ?_
    refine loud_bind (loud_onlyIf fun _ => loud_last rfl id) fun _ => ?_
    exact loud_step rfl fun _ => loud_pure id

theorem loud_managerPwrite (fd : Nat) (buf : List UInt8) (offset : Int) :
    Loud hushes False (managerPwrite fd buf offset) := by
  unfold managerPwrite
  refine loud_step rfl fun file => ?_
  split
  · exact loud_step rfl fun _ => loud_pure id
  · refine loud_step rfl fun _ => loud_step rfl fun r => ?_
    dsimp only
    split
    · refine loud_step rfl fun e => loud_bind (loud_unlockRangeReporting _ _) fun _ => ?_
      exact loud_step rfl fun _ => loud_pure id
    · refine loud_bind
        (loud_onlyIf fun _ => loud_withSession (loud_captureWrite hh _ _ _)) fun _ => ?_
      exact loud_bind (loud_unlockRangeReporting _ _) fun _ => loud_pure id

omit hh in
theorem loud_managerLseek (fd : Nat) (offset : Int) (whence : Nat) :
    Loud hushes False (managerLseek fd offset whence) := by
  unfold managerLseek
  refine loud_step rfl fun file => ?_
  split
  · exact loud_step rfl fun _ => loud_pure id
  · refine loud_step rfl fun _ => loud_step rfl fun r => ?_
    exact loud_step rfl fun _ => loud_step rfl fun _ => loud_pure id

theorem loud_managerFtruncate (fd : Nat) (length : Int) :
    Loud hushes False (managerFtruncate fd length) := by
  unfold managerFtruncate
  refine loud_step rfl fun file => ?_
  split
  · exact loud_step rfl fun _ => loud_pure id
  · refine loud_step rfl fun _ => loud_step rfl fun r => ?_
    dsimp only
    split
    · refine loud_bind (loud_withSession (loud_captureFtruncate hh _ _)) fun _ => ?_
      exact loud_bind (loud_unlockRangeReporting _ _) fun _ => loud_pure id
    · refine loud_step rfl fun e => loud_bind (loud_unlockRangeReporting _ _) fun _ => ?_
      exact loud_step rfl fun _ => loud_pure id

omit hh in
theorem loud_managerMkdir (pathname : Path)
    (hpath : ∀ c : BackupCall, c.ofOpenPath = true → hushes c = false) :
    Loud hushes False (managerMkdir pathname) := by
  unfold managerMkdir
  refine loud_step rfl fun _ => loud_step rfl fun D => ?_
  split
  · exact loud_last rfl id
  · refine loud_quiet_bind (quiet_captureMkdir _ pathname) hpath fun r => ?_
    split
    · rename_i hr
      exact loud_backupError hr (loud_last rfl id)
    · rename_i hr
      exact loud_last rfl fun h => h.elim id hr

theorem accounted_managerRename (oldpath newpath : Path)
    (hcreate : ∀ c : BackupCall, c.ofCreate = true → hushes c = true) :
    Accounted hushes (managerRename oldpath newpath) := by
  unfold managerRename
  refine accounted_step rfl fun r => ?_
  split
  · exact (loud_bind (loud_reportNoMemory _ _) fun _ => loud_step rfl fun _ =>
      loud_pure id).accounted
  · refine accounted_step rfl fun r => ?_
    refine accounted_bind_mute ?_ fun _ => quiet_pure
    unfold onlyIf
    split
    · exact accounted_withSession fun D => accounted_captureRename hh _ _ D hcreate
    · exact (loud_pure id).accounted

theorem accounted_managerUnlink (path : Path)
    (hcreate : ∀ c : BackupCall, c.ofCreate = true → hushes c = true) :
    Accounted hushes (managerUnlink path) := by
  unfold managerUnlink
  refine accounted_step rfl fun r => ?_
  split
  · exact (loud_bind (loud_reportNoMemory _ _) fun _ => loud_step rfl fun _ =>
      loud_pure id).accounted
  · refine accounted_step rfl fun r => ?_
    dsimp only
    split
    · exact (loud_pure id).accounted
    · refine accounted_step rfl fun _ => accounted_mute_bind (mute_getOrCreate _) fun source => ?_
      refine accounted_step rfl fun _ => accounted_step rfl fun _ => accounted_step rfl fun _ => ?_
      refine accounted_bind_mute (accounted_unlinkSection hh _ source hcreate) fun _ => ?_
      exact quiet_step rfl fun _ => quiet_step rfl fun _ => quiet_pure

end

/-! ## The main result -/

/-- The calls whose capture has to report its failures: all but `truncate`, which expects not
to find the backup's file. -/
def AppCall.Captured : AppCall → Prop
  | .truncate _ _ => False
  | _ => True

theorem verdict_interposed {c : AppCall} (hc : c.Captured) : Verdict c.hushes (interposed c) := by
  have hh : ∀ b : BackupCall, b.hushable = false → c.hushes b = false :=
    fun b => hushes_of_hushable c
  have halive : ∀ {c : AppCall} {hushes} {p : CallM Int}, Accounted hushes p →
      Verdict hushes (whenAlive c p) := by
    intro c hushes p hp
    unfold whenAlive
    refine (accounted_step rfl fun b => ?_).verdict
    split
    · exact hp
    · exact accounted_step rfl fun _ => (loud_pure id).accounted
  have hfileOp : ∀ {hushes} {p : CallM Int}, Accounted hushes p →
      Accounted hushes
        (lock .fileOp >>= fun _ => p >>= fun r => unlock .fileOp >>= fun _ => pure r) := by
    intro hushes p hp
    refine accounted_step rfl fun _ => accounted_bind_mute hp fun r => ?_
    exact quiet_step rfl fun _ => quiet_pure
  cases c with
  | openFile file oflag creat mode =>
    refine verdict_interposedOpen file oflag creat mode (fun b hb => ?_) fun b hb => ?_
    · cases b <;> first | rfl | cases hb
    · cases b <;> first | rfl | cases hb
  | close fd =>
    refine (accounted_bind_mute (p := ifAlive (managerClose fd)) ?_ fun _ => ?_).verdict
    · unfold ifAlive
      refine accounted_step rfl fun b => ?_
      split
      · exact (loud_managerClose hh fd).accounted
      · exact (loud_pure id).accounted
    · exact quiet_step rfl fun _ => quiet_pure
  | read fd nbyte => exact halive (loud_managerRead fd nbyte).accounted
  | write fd buf => exact halive (loud_managerWrite hh fd buf).accounted
  | pwrite fd buf offset => exact halive (loud_managerPwrite hh fd buf offset).accounted
  | lseek fd offset whence => exact halive (loud_managerLseek fd offset whence).accounted
  | ftruncate fd length => exact halive (loud_managerFtruncate hh fd length).accounted
  | truncate path length => exact absurd hc id
  | rename oldpath newpath =>
    refine halive (hfileOp (accounted_managerRename hh oldpath newpath fun b hb => ?_))
    cases b <;> first | rfl | cases hb
  | unlink path =>
    refine halive (hfileOp (accounted_managerUnlink hh path fun b hb => ?_))
    cases b <;> first | rfl | cases hb
  | mkdir pathname mode =>
    refine (accounted_step rfl fun r => accounted_bind_mute ?_ fun _ => quiet_pure).verdict
    unfold onlyIf
    split
    · unfold ifAlive
      refine accounted_step rfl fun b => ?_
      split
      · exact (loud_managerMkdir pathname fun b _ => by cases b <;> rfl).accounted
      · exact (loud_pure id).accounted
    · exact (loud_pure id).accounted

/-- An error is recorded: one from before, or one with a number other than zero, which
`do_backup` returns. -/
def Recorded (s s' : Manager) : Prop :=
  ∃ n text, s'.error = some (n, text) ∧ (s.error = some (n, text) ∨ n ≠ 0)

theorem Moves.recorded_iff {s s' : Manager} (h : Moves s s') :
    Recorded s s' ↔ s'.error.isSome := by
  constructor
  · rintro ⟨n, text, hs, -⟩
    rw [hs]
    rfl
  · intro hsome
    rcases h with h | ⟨-, n, text, hn, hne⟩
    · obtain ⟨⟨n, text⟩, hx⟩ := Option.isSome_iff_exists.mp hsome
      exact ⟨n, text, hx, Or.inl (h ▸ hx)⟩
    · exact ⟨n, text, hn, Or.inr hne⟩

/-- A captured call that returns has recorded its failures exactly when none of them is a
hushed one, unless an error was there anyway. -/
theorem capture_failure_recorded_iff {c : AppCall} (hc : c.Captured) {s s' : Manager}
    {es : List Event} {v : Int}
    (hrun : exec managerHandler (interposed c) s es = some (.ok v, s')) :
    ((∃ e ∈ es, Failed e) → Recorded s s') ↔
      ((∃ e ∈ es, Silent c.hushes e) → s.error.isSome ∨ ∃ e ∈ es, FstatFailed e) := by
  obtain ⟨hm, ht, hs⟩ := all_iff.mp (verdict_interposed hc s) es _ s' hrun
  rw [hm.recorded_iff]
  by_cases hsilent : ∃ e ∈ es, Silent c.hushes e
  · have hfailed : ∃ e ∈ es, Failed e := hsilent.imp fun e he => ⟨he.1, he.2.1⟩
    simp only [hsilent, hfailed, true_implies]
    exact hs hsilent
  · refine iff_of_true (fun hfailed => ht v rfl (fun e he h => hsilent ⟨e, he, h⟩) hfailed) ?_
    exact fun h => absurd h hsilent

/-- A file is renamed, and renaming its destination fails. -/
def failingRename : List Event :=
  [⟨.realpath .rename "/s/x".toList, .ok "/s/x".toList⟩,
    ⟨.real (.rename "/s/x".toList "/s/y".toList), .ok 0⟩,
    ⟨.realpath .captureRename "/s/y".toList, .ok "/s/y".toList⟩,
    ⟨.tableGet "/s/x".toList, none⟩,
    ⟨.newFile "/s/x".toList, (1 : Ptr)⟩,
    ⟨.backup (.openFile "/b/x".toList), .ok 7⟩,
    ⟨.realpath .sourceFileRename "/s/y".toList, .ok "/s/y".toList⟩,
    ⟨.backup (.rename "/b/x".toList "/b/y".toList), .error Errno.eio⟩,
    ⟨.backup (.close 7), .ok 0⟩]

theorem capture_failure_recorded_failingRename : ∃ s' : Manager,
    exec managerHandler (interposed (.rename "/s/x".toList "/s/y".toList))
      (capturing oneDirectory) failingRename = some (.ok 0, s') ∧
    Recorded (capturing oneDirectory) s' := by
  have hrun : ∃ s' : Manager, exec managerHandler
      (interposed (.rename "/s/x".toList "/s/y".toList)) (capturing oneDirectory) failingRename =
        some (.ok 0, s') := ⟨_, rfl⟩
  obtain ⟨s', hrun⟩ := hrun
  have hc : AppCall.Captured (.rename "/s/x".toList "/s/y".toList) := trivial
  refine ⟨s', hrun, (capture_failure_recorded_iff hc hrun).mpr ?_ ?_⟩
  · intro h
    obtain ⟨e, he, hfail, c, hc, hhush⟩ := h
    simp only [failingRename, List.mem_cons, List.not_mem_nil, or_false] at he
    rcases he with rfl | rfl | rfl | rfl | rfl | rfl | rfl | rfl | rfl <;> cases hc
    · obtain ⟨err, herr⟩ := hfail
      cases herr
    · cases hhush
    · cases hhush
  · refine ⟨⟨.backup (.rename "/b/x".toList "/b/y".toList), .error Errno.eio⟩,
      by simp [failingRename], ?_⟩
    exact ⟨Errno.eio, rfl, by decide⟩

/-- A file is created, and looking for its destination fails. -/
def failingOpen : List Event :=
  [⟨.real (.openFile "/s/x".toList 65 true (some 438)), .ok 3⟩,
    ⟨.fstat 3, .ok .regular⟩,
    ⟨.realpath .setupDescription "/s/x".toList, .ok "/s/x".toList⟩,
    ⟨.tableGet "/s/x".toList, none⟩,
    ⟨.newFile "/s/x".toList, (1 : Ptr)⟩,
    ⟨.realpath .isPrefix "/s/x".toList, .ok "/s/x".toList⟩,
    ⟨.realpath .translatePrefix "/s/x".toList, .ok "/s/x".toList⟩,
    ⟨.backup (.stat "/b/x".toList), .error Errno.eio⟩]

theorem not_capture_failure_recorded_failingOpen : ¬ ∀ (c : AppCall) (s s' : Manager)
    (es : List Event) (v : Int), c.Captured → s.session.isSome →
    exec managerHandler (interposed c) s es = some (.ok v, s') →
    (∃ e ∈ es, Failed e) → Recorded s s' := by
  intro h
  have hc : AppCall.Captured (.openFile "/s/x".toList 65 true (some 438)) := trivial
  have hrun :
    ∃ s' : Manager, exec managerHandler (interposed (.openFile "/s/x".toList 65 true (some 438)))
      (capturing oneDirectory) failingOpen = some (.ok 3, s') ∧ s'.error = none := ⟨_, rfl, rfl⟩
  obtain ⟨s', hrun, hnone⟩ := hrun
  obtain ⟨n, text, hsome, -⟩ := h _ _ s' _ _ hc rfl hrun
    ⟨⟨.backup (.stat "/b/x".toList), .error Errno.eio⟩, by simp [failingOpen], Errno.eio,
      rfl, by decide⟩
  rw [hnone] at hsome
  cases hsome

end TokuBackup.Interpose
