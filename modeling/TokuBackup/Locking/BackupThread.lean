import TokuBackup.Locking.Model

/-!
# The locks of the backup thread

`do_backup` and what it calls take their locks in order, too.
-/

namespace TokuBackup.Locking

open Kernel Table Lib Prog

/-- A part of `do_backup` that waits for locks below `b`, and gives them back. -/
abbrev ShortBackup {α : Type} (b : Nat) (p : BackupM α) : Prop := Brief order backupLockEvents b p

section

variable {b : Nat}

theorem short_prepareFrom (n i : Nat) : ShortBackup 2 (prepareFrom n i) := by
  induction n generalizing i with
  | zero => exact brief_pure _
  | succ n ih =>
    unfold prepareFrom
    refine brief_call rfl fun source => ?_
    split
    · exact ih _
    · refine brief_lock rfl (by decide) fun _ held hheld => ?_
      refine obeys_acquire rfl ?_ fun _ => obeys_free rfl fun isPrefix => ?_
      · exact above_cons (Nat.le_refl 1) hheld (Nat.le_succ 1)
      split
      · refine obeys_free rfl fun excluded => ?_
        split
        · exact obeys_release_head rfl fun _ => obeys_release_head rfl fun _ => rfl
        · refine obeys_free rfl fun (r : Int) => ?_
          split
          · exact obeys_release_head rfl fun _ => obeys_release_head rfl fun _ => rfl
          · refine obeys_free rfl fun (r : Int) => obeys_release_head rfl fun _ => ?_
            refine obeys_release_head rfl fun _ => ?_
            split
            · rfl
            · exact ih _ held hheld
      · exact obeys_release_head rfl fun _ => obeys_release_head rfl fun _ => ih _ held hheld

theorem short_prepareDirectoriesForBackup : ShortBackup 3 prepareDirectoriesForBackup := by
  unfold prepareDirectoriesForBackup
  refine brief_lock rfl (by decide) fun _ held hheld => obeys_free rfl fun size => ?_
  refine (short_prepareFrom size 0).obeys (above_cons (by decide) hheld (by decide)) fun r => ?_
  exact obeys_release_head rfl fun _ => rfl

theorem short_disableDescriptions : ShortBackup 3 disableDescriptions := by
  have hloop : ∀ n i, ShortBackup 0 (disableFrom n i) := by
    intro n
    induction n with
    | zero => exact fun i => brief_pure ()
    | succ n ih =>
      intro i
      unfold disableFrom
      refine brief_call rfl fun source => ?_
      split
      · exact ih _
      · exact brief_call rfl fun _ => ih _
  unfold disableDescriptions
  refine brief_lock rfl (by decide) fun _ held hheld => obeys_free rfl fun size => ?_
  exact (hloop size 0).obeys (fun _ _ => Nat.zero_le _) fun _ => obeys_release_last rfl

/-- A momentary use of the todo list. -/
theorem short_todo {α : Type} {o : BackupOp} {f : o.Answer → BackupM α}
    (ho : backupLockEvents o = [])
    (hb : 0 < b) (hf : ∀ r, ShortBackup b (f r)) :
    ShortBackup b (lock .todo >>= fun _ => (call o : BackupM o.Answer) >>= fun r =>
      unlock .todo >>= fun _ => f r) := by
  refine brief_lock rfl hb fun _ held hheld => obeys_free ho fun r => ?_
  exact obeys_release_head rfl fun _ => hf r held hheld

theorem short_cleanup : ShortBackup 1 cleanup :=
  brief_lock rfl Nat.one_pos fun _ _ _ => obeys_free rfl fun _ => obeys_release_last rfl

theorem short_openAndLock (file : Ptr) : ShortBackup 4 (openAndLockFileThenCopyRange file) := by
  unfold openAndLockFileThenCopyRange
  refine brief_lock rfl (Nat.succ_pos 3) fun _ held _ => obeys_free rfl fun again => ?_
  split
  · exact obeys_release_head rfl fun _ => rfl
  · exact obeys_free rfl fun result => obeys_release_head rfl fun _ => rfl

/-- A range of the copy: the fd mutex is taken with the range. -/
theorem short_copyRanges (file : Ptr) (n : Nat) : ShortBackup 5 (copyRanges file n) := by
  induction n with
  | zero => exact brief_pure _
  | succ n ih =>
    unfold copyRanges
    refine brief_call rfl fun enabled => ?_
    split
    · refine brief_call rfl fun lock_start => ?_
      refine brief_lock rfl (Nat.lt_succ_self 4) fun _ held hheld => ?_
      refine (short_openAndLock file).obeys (above_cons (Nat.le_refl 4) hheld (Nat.le_succ 4))
        fun result => obeys_release_head rfl fun found => ?_
      split
      · split
        · rfl
        · refine obeys_free rfl fun (r : Int) => ?_
          split
          · rfl
          · exact ih held hheld
      · rfl
    · exact brief_pure _

theorem short_copyFileData (rounds : Nat) (file : Ptr) :
    ShortBackup 5 (copyFileData rounds file) := by
  unfold copyFileData
  refine brief_call rfl fun (r : Int) => ?_
  split
  · exact brief_pure _
  · exact short_copyRanges file rounds

theorem short_orZero {flag : Bool} {body : BackupM Int} (h : ShortBackup b body) :
    ShortBackup b (orZero flag body) := by
  unfold orZero
  split
  · exact h
  · exact brief_pure _

theorem short_createDestinationAndCopy (rounds : Nat) (file : Ptr) :
    ShortBackup 5 (createDestinationAndCopy rounds file) := by
  unfold createDestinationAndCopy
  refine brief_lock rfl (by decide) fun _ held hheld => ?_
  refine obeys_acquire rfl ?_ fun _ => obeys_free rfl fun (found : Bool) => ?_
  · exact above_cons (Nat.le_refl 1) hheld (Nat.le_add_left 1 4)
  have hcreate : ShortBackup 0 (orZero found (tryToCreateDestinationFile file)) :=
    short_orZero (brief_last rfl)
  refine hcreate.obeys (fun _ _ => Nat.zero_le _) fun (result : Int) => obeys_free rfl
    fun (dest : Bool) => ?_
  refine obeys_release_head rfl fun _ => obeys_release_head rfl fun _ => ?_
  split
  · rfl
  · refine (short_orZero (short_copyFileData rounds file)).obeys hheld fun (r : Int) => ?_
    split
    · rfl
    · refine obeys_acquire rfl ?_ fun _ => obeys_free rfl fun _ =>
        obeys_release_head rfl fun _ => rfl
      exact fun h hh => Nat.lt_of_lt_of_le (by decide) (hheld h hh)

theorem short_copyRegularFile (rounds : Nat) (file : Ptr) :
    ShortBackup 5 (copyRegularFile rounds file) := by
  unfold copyRegularFile
  refine brief_lock rfl (Nat.succ_pos 4) fun _ held hheld => obeys_free rfl fun _ => ?_
  refine obeys_release_head rfl fun _ => obeys_free rfl fun (source : Except _ Nat) => ?_
  cases source with
  | error e => rfl
  | ok fd =>
    refine (short_createDestinationAndCopy rounds file).obeys hheld fun result => ?_
    exact obeys_free rfl fun _ => rfl

theorem short_copyUsingSourceInfo (rounds : Nat) (path : Path) :
    ShortBackup 5 (copyUsingSourceInfo rounds path) := by
  unfold copyUsingSourceInfo
  refine brief_lock rfl (by decide) fun _ held hheld => obeys_free rfl fun file => ?_
  refine obeys_release_head rfl fun _ => ?_
  refine (short_copyRegularFile rounds file).obeys hheld fun result => ?_
  refine obeys_acquire rfl ?_ fun _ => obeys_free rfl fun _ => obeys_release_head rfl fun _ => rfl
  exact fun h hh => Nat.lt_of_lt_of_le (by decide) (hheld h hh)

theorem short_addDirEntriesToTodo (rounds : Nat) (path : Path) :
    ShortBackup 1 (addDirEntriesToTodo rounds path) := by
  have hloop : ∀ n, ShortBackup 0 (addEntries path n) := by
    intro n
    induction n with
    | zero => exact brief_pure ()
    | succ n ih =>
      unfold addEntries
      refine brief_call rfl fun name => ?_
      split
      · exact brief_pure ()
      · refine brief_call rfl fun enabled => ?_
        split
        · exact brief_call rfl fun _ => ih
        · exact brief_pure ()
  unfold addDirEntriesToTodo
  refine brief_lock rfl Nat.one_pos fun _ held _ => ?_
  exact (hloop rounds).obeys (fun _ _ => Nat.zero_le _) fun _ => obeys_release_last rfl

theorem short_copyFullPath (rounds : Nat) (path : Path) :
    ShortBackup 5 (copyFullPath rounds path) := by
  unfold copyFullPath
  refine brief_call rfl fun excluded => ?_
  split
  · exact brief_pure _
  · refine brief_call rfl fun kind => ?_
    split
    · exact brief_pure _
    · exact short_copyUsingSourceInfo rounds path
    · refine brief_call rfl fun (r : Int) => ?_
      split
      · exact brief_pure _
      · refine brief_call rfl fun (r : Int) => ?_
        split
        · exact brief_pure _
        · refine ((short_addDirEntriesToTodo rounds path).mono (by decide)).bind fun _ => ?_
          exact brief_last rfl
    · exact brief_pure _

theorem short_copyFiles (rounds n : Nat) : ShortBackup 5 (copyFiles rounds n) := by
  induction n with
  | zero => exact brief_pure _
  | succ n ih =>
    unfold copyFiles
    refine brief_call rfl fun enabled => ?_
    split
    · refine short_todo rfl (by decide) fun fname => brief_call rfl fun (r : Int) => ?_
      split
      · exact brief_pure _
      · refine short_todo rfl (by decide) fun _ => ?_
        refine (short_copyFullPath rounds fname).bind fun (r : Int) => ?_
        split
        · exact brief_pure _
        · refine short_todo rfl (by decide) fun (n_known : Nat) => ?_
          split
          · exact brief_pure _
          · exact ih
    · exact brief_pure _

theorem short_copierDoCopy (rounds : Nat) : ShortBackup 5 (copierDoCopy rounds) := by
  unfold copierDoCopy
  refine short_todo rfl (by decide) fun _ => (short_copyFiles rounds rounds).bind fun r => ?_
  exact (short_cleanup.mono (by decide)).bind fun _ => brief_pure r

theorem short_sessionDoCopy (rounds n : Nat) : ShortBackup 5 (sessionDoCopy rounds n) := by
  induction n with
  | zero => exact brief_pure _
  | succ n ih =>
    unfold sessionDoCopy
    refine (short_copierDoCopy rounds).bind fun (r : Int) => ?_
    split
    · exact brief_pure _
    · exact ih

/-- The session lock is held for writing around the fd map. -/
theorem short_endSession : ShortBackup 6 endSession := by
  unfold endSession
  refine brief_lock rfl (Nat.lt_succ_self 5) fun _ held hheld => ?_
  have hsession : ∀ h ∈ HeldLock.sessionWrite :: held, 3 ≤ h.heldRank :=
    above_cons (Nat.le_refl 3) hheld (by decide)
  refine short_disableDescriptions.obeys hsession fun _ => ?_
  refine (short_cleanup.mono (by decide)).obeys hsession fun _ => ?_
  exact obeys_release_last rfl

/-- `do_backup` takes its locks in order. -/
theorem short_doBackup (rounds : Nat) : ShortBackup 6 (doBackup rounds) := by
  unfold doBackup
  refine brief_call rfl fun dead => ?_
  split
  · exact brief_pure _
  refine brief_call rfl fun (r : Int) => ?_
  split
  · exact brief_pure _
  refine brief_call rfl fun (r : Int) => ?_
  split
  · exact brief_pure _
  refine brief_call rfl fun (r : Int) => ?_
  split
  · exact brief_pure _
  refine brief_lock rfl (Nat.lt_succ_self 5) fun _ held hheld => ?_
  have hsession : ∀ h ∈ HeldLock.sessionWrite :: held, 3 ≤ h.heldRank :=
    above_cons (Nat.le_refl 3) hheld (by decide)
  refine (short_cleanup.mono (by decide)).obeys hsession fun _ => ?_
  refine short_prepareDirectoriesForBackup.obeys hsession fun (r : Int) => ?_
  refine obeys_release_head rfl fun _ => ?_
  split
  · exact short_endSession.obeys hheld fun _ => rfl
  · refine obeys_free rfl fun count => ?_
    refine ((short_sessionDoCopy rounds count).mono (by decide)).obeys hheld fun r => ?_
    exact short_endSession.obeys hheld fun _ => rfl

end

end TokuBackup.Locking
