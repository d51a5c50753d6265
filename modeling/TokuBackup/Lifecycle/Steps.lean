import TokuBackup.Lifecycle.Model

/-!
# What a step can do

`OpenStep`, `CloseStep`, `FileOpStep`, `ThreadStep`, `CopierStep` and `BackupStep` list the
steps of the parties, each with the guards that it has passed. A step whose section may
fault keeps the section as it is: its outcomes are those of `State.attempt_cases`.
-/

namespace TokuBackup.Lifecycle

open Kernel Table Lib

variable {hash : Path → Nat} {s s' : State}

/-- A section ends in a fault, or its step goes on with what it returns. -/
theorem State.attempt_cases {α : Type} {x : Except Fault α} {k : α → State}
    (h : some (s.attempt x k) = some s') :
    (∃ e, s' = { s with fault := some e }) ∨ ∃ a, x = .ok a ∧ s' = k a := by
  cases h
  cases x with
  | error e => exact Or.inl ⟨e, rfl⟩
  | ok a => exact Or.inr ⟨a, rfl, rfl⟩

/-! ## `open` -/

inductive OpenStep (hash : Path → Nat) (s s' : State) : Action → Prop where
  | existing (fd : Nat) (path : Path) (i : Inode) : s.fds fd = none → s.names path = some i →
      s' = { s with fds := Function.update s.fds fd (some ⟨path, i, .opened⟩) } →
      OpenStep hash s s' (.openReal fd path false)
  /-- With `O_CREAT` the mutex is taken, whether the file exists or not. -/
  | found (fd : Nat) (path : Path) (i : Inode) : s.fds fd = none → s.fileOp = .free →
      s.names path = some i →
      s' = { s with
        fds := Function.update s.fds fd (some ⟨path, i, .opened⟩)
        fileOp := .creating fd } →
      OpenStep hash s s' (.openReal fd path true)
  | new (fd : Nat) (path : Path) : s.fds fd = none → s.fileOp = .free → s.names path = none →
      s' = { s with
        names := Function.update s.names path (some s.freshInode)
        freshInode := s.freshInode + 1
        fds := Function.update s.fds fd (some ⟨path, s.freshInode, .opened⟩)
        fileOp := .creating fd } →
      OpenStep hash s s' (.openReal fd path true)
  /-- `realpath` fails. -/
  | untracked (fd : Nat) (d : Fd) : s.fds fd = some d → d.stage = .opened →
      s.names d.path = none →
      s' = { s.backupError true with
        fds := Function.update s.fds fd none
        fileOp := s.fileOp.unlock fd } →
      OpenStep hash s s' (.openAttach fd)
  | attach (fd : Nat) (d : Fd) : s.fds fd = some d → d.stage = .opened → s.names d.path ≠ none →
      some (s.attempt (s.files.getOrCreate hash d.path) fun r =>
        ({ s with files := r.2 }).moveFd fd d (.attached r.1)) = some s' →
      OpenStep hash s s' (.openAttach fd)
  | publish (fd : Nat) (d : Fd) (source : Ptr) : s.fds fd = some d → d.stage = .attached source →
      s.backup.exclusive = false →
      s' = { s with mapSize := max s.mapSize (fd + 1) }.moveFd fd d (.published source) →
      OpenStep hash s s' (.openPublish fd)
  /-- The section of `capture_open`, which is empty without a session. -/
  | capture (fd : Nat) (opened created : Bool) (d : Fd) (source : Ptr)
      (captured : Except Fault (Files × Bool)) :
      s.fds fd = some d → d.stage = .published source → s.backup.exclusive = false →
      ((∃ D, s.session = some D ∧ captured = captureOpen s D d.path source opened created) ∨
        s.session = none ∧ captured = .ok (s.files, false)) →
      some (s.attempt captured fun r =>
        ({ s.backupError r.2 with
          files := r.1
          fileOp := s.fileOp.unlock fd }).moveFd fd d (.usable source)) = some s' →
      OpenStep hash s s' (.openCapture fd opened created)

theorem openStep_of_stepOpen {a : Action} (hstep : stepOpen hash s a = some s') :
    OpenStep hash s s' a := by
  cases a with
  | openReal fd path create =>
    simp only [stepOpen] at hstep
    split at hstep
    · cases hstep
    · rename_i hfd
      have hfd : s.fds fd = none := by simpa using hfd
      split at hstep
      · rename_i hcreate
        subst hcreate
        split at hstep
        · rename_i hfree
          split at hstep
          · rename_i i hi
            cases hstep
            exact .found fd path i hfd hfree hi rfl
          · rename_i hnone
            cases hstep
            exact .new fd path hfd hfree hnone rfl
        · cases hstep
      · rename_i hcreate
        obtain rfl : create = false := by simpa using hcreate
        obtain ⟨i, hi, hs'⟩ := Option.map_eq_some_iff.mp hstep
        exact .existing fd path i hfd hi hs'.symm
  | openAttach fd =>
    simp only [stepOpen] at hstep
    split at hstep
    · rename_i d hd
      split at hstep
      · rename_i hstage
        split at hstep
        · rename_i hnone
          cases hstep
          exact .untracked fd d hd hstage hnone rfl
        · rename_i hname
          exact .attach fd d hd hstage hname hstep
      · cases hstep
    · cases hstep
  | openPublish fd =>
    simp only [stepOpen] at hstep
    split at hstep
    · rename_i d hd
      split at hstep
      · rename_i source hstage
        split at hstep
        · cases hstep
        · rename_i hexclusive
          cases hstep
          exact .publish fd d source hd hstage (by simpa using hexclusive) rfl
      · cases hstep
    · cases hstep
  | openCapture fd opened created =>
    simp only [stepOpen] at hstep
    split at hstep
    · rename_i d hd
      split at hstep
      · rename_i source hstage
        split at hstep
        · cases hstep
        · rename_i hexclusive
          refine .capture fd opened created d source _ hd hstage
            (by simpa using hexclusive) ?_ hstep
          split
          · rename_i D hsession
            exact Or.inl ⟨D, hsession, rfl⟩
          · rename_i hsession
            exact Or.inr ⟨hsession, rfl⟩
      · cases hstep
    · cases hstep
  | _ => cases hstep

/-! ## Closes -/

inductive CloseStep (hash : Path → Nat) (s s' : State) : Action → Prop where
  | begin (fd : Nat) (d : Fd) (source : Ptr) : s.fds fd = some d → d.stage = .usable source →
      s.backup.exclusive = false → s' = s.moveFd fd d (.closing source) →
      CloseStep hash s s' (.closeBegin fd)
  | unhook (fd : Nat) (d : Fd) (source : Ptr) : s.fds fd = some d → d.stage = .closing source →
      s.backup.exclusive = false → s.session.isSome = true →
      some (s.attempt (s.files.tryToRemoveDestination source) fun files =>
        ({ s with files }).moveFd fd d (.unhooked source)) = some s' →
      CloseStep hash s s' (.closeUnhook fd)
  /-- Without a session there is no destination to take. -/
  | pass (fd : Nat) (d : Fd) (source : Ptr) : s.fds fd = some d → d.stage = .closing source →
      s.backup.exclusive = false → s.session = none → s' = s.moveFd fd d (.unhooked source) →
      CloseStep hash s s' (.closeUnhook fd)
  | erase (fd : Nat) (d : Fd) (source : Ptr) : s.fds fd = some d → d.stage = .unhooked source →
      s.backup.exclusive = false → s' = s.moveFd fd d (.erased source) →
      CloseStep hash s s' (.closeErase fd)
  | release (fd : Nat) (d : Fd) (source : Ptr) : s.fds fd = some d → d.stage = .erased source →
      some (s.attempt (s.files.tryToRemove hash source) fun files =>
        ({ s with files }).moveFd fd d .released) = some s' →
      CloseStep hash s s' (.closeRelease fd)
  | real (fd : Nat) (d : Fd) : s.fds fd = some d → d.stage = .released →
      s' = { s with fds := Function.update s.fds fd none } → CloseStep hash s s' (.closeReal fd)

theorem closeStep_of_stepClose {a : Action} (hstep : stepClose hash s a = some s') :
    CloseStep hash s s' a := by
  cases a with
  | closeBegin fd =>
    simp only [stepClose] at hstep
    split at hstep
    · rename_i d hd
      split at hstep
      · rename_i source hstage
        split at hstep
        · cases hstep
        · rename_i hexclusive
          cases hstep
          exact .begin fd d source hd hstage (by simpa using hexclusive) rfl
      · cases hstep
    · cases hstep
  | closeUnhook fd =>
    simp only [stepClose] at hstep
    split at hstep
    · rename_i d hd
      split at hstep
      · rename_i source hstage
        split at hstep
        · cases hstep
        · rename_i hexclusive
          split at hstep
          · rename_i hsession
            exact .unhook fd d source hd hstage (by simpa using hexclusive) hsession hstep
          · rename_i hsession
            cases hstep
            exact .pass fd d source hd hstage (by simpa using hexclusive) (by simpa using hsession)
              rfl
      · cases hstep
    · cases hstep
  | closeErase fd =>
    simp only [stepClose] at hstep
    split at hstep
    · rename_i d hd
      split at hstep
      · rename_i source hstage
        split at hstep
        · cases hstep
        · rename_i hexclusive
          cases hstep
          exact .erase fd d source hd hstage (by simpa using hexclusive) rfl
      · cases hstep
    · cases hstep
  | closeRelease fd =>
    simp only [stepClose] at hstep
    split at hstep
    · rename_i d hd
      split at hstep
      · rename_i source hstage
        exact .release fd d source hd hstage hstep
      · cases hstep
    · cases hstep
  | closeReal fd =>
    simp only [stepClose] at hstep
    split at hstep
    · rename_i d hd
      split at hstep
      · rename_i hstage
        cases hstep
        exact .real fd d hd hstage rfl
      · cases hstep
    · cases hstep
  | _ => cases hstep

/-! ## `unlink` and `rename` -/

inductive FileOpStep (hash : Path → Nat) (s s' : State) : Action → Prop where
  | unlinkStart (path : Path) : s.fileOp = .free → s.names path ≠ none →
      s' = { s with fileOp := .unlinking path } → FileOpStep hash s s' (.unlinkStart path)
  | unlinkReal (path : Path) : s.fileOp = .unlinking path →
      s' = { s with names := Function.update s.names path none, fileOp := .unlinked path } →
      FileOpStep hash s s' (.unlinkReal true)
  | unlinkAbort (path : Path) : s.fileOp = .unlinking path → s' = { s with fileOp := .free } →
      FileOpStep hash s s' (.unlinkReal false)
  | unlinkHold (path : Path) : s.fileOp = .unlinked path →
      some (s.attempt (s.files.getOrCreate hash path) fun r =>
        { s with files := r.2, fileOp := .unlinkHeld path r.1 }) = some s' →
      FileOpStep hash s s' .unlinkHold
  | unlinkFinish (created unlinked : Bool) (path : Path) (source : Ptr) :
      s.fileOp = .unlinkHeld path source → s.backup.exclusive = false →
      some (s.attempt (unlinkSection hash s path source created unlinked) fun r =>
        { s.backupError r.2 with files := r.1, fileOp := .free }) = some s' →
      FileOpStep hash s s' (.unlinkFinish created unlinked)
  | renameStart (old_path new_path : Path) : s.fileOp = .free → s.names old_path ≠ none →
      s' = { s with fileOp := .renaming old_path new_path } →
      FileOpStep hash s s' (.renameStart old_path new_path)
  | renameReal (old_path new_path : Path) : s.fileOp = .renaming old_path new_path →
      s' = { s with
        names := Function.update (Function.update s.names old_path none) new_path
          (s.names old_path)
        fileOp := .renamed old_path new_path } →
      FileOpStep hash s s' (.renameReal true)
  | renameAbort (old_path new_path : Path) : s.fileOp = .renaming old_path new_path →
      s' = { s with fileOp := .free } → FileOpStep hash s s' (.renameReal false)
  | renameCapture (created renamed enoent : Bool) (old_path new_path : Path) (D : DirectorySet) :
      s.fileOp = .renamed old_path new_path → s.backup.exclusive = false → s.session = some D →
      some (s.attempt (captureRename hash s.files D old_path new_path
          ⟨created, if s.names new_path = none then none else some new_path, renamed, enoent⟩)
        fun r => { s.backupError r.2 with files := r.1, fileOp := .free }) = some s' →
      FileOpStep hash s s' (.renameCapture created renamed enoent)
  | renamePass (created renamed enoent : Bool) (old_path new_path : Path) :
      s.fileOp = .renamed old_path new_path → s.backup.exclusive = false → s.session = none →
      s' = { s with fileOp := .free } →
      FileOpStep hash s s' (.renameCapture created renamed enoent)

theorem fileOpStep_of_stepFileOp {a : Action} (hstep : stepFileOp hash s a = some s') :
    FileOpStep hash s s' a := by
  cases a with
  | unlinkStart path =>
    simp only [stepFileOp] at hstep
    split at hstep
    · rename_i hfree
      cases hstep
      exact .unlinkStart path hfree.1 hfree.2 rfl
    · cases hstep
  | unlinkReal ok =>
    simp only [stepFileOp] at hstep
    split at hstep
    · rename_i path hop
      cases ok with
      | true =>
        cases hstep
        exact .unlinkReal path hop rfl
      | false =>
        cases hstep
        exact .unlinkAbort path hop rfl
    · cases hstep
  | unlinkHold =>
    simp only [stepFileOp] at hstep
    split at hstep
    · rename_i path hop
      exact .unlinkHold path hop hstep
    · cases hstep
  | unlinkFinish created unlinked =>
    simp only [stepFileOp] at hstep
    split at hstep
    · rename_i path source hop
      split at hstep
      · cases hstep
      · rename_i hexclusive
        exact .unlinkFinish created unlinked path source hop (by simpa using hexclusive) hstep
    · cases hstep
  | renameStart old_path new_path =>
    simp only [stepFileOp] at hstep
    split at hstep
    · rename_i hfree
      cases hstep
      exact .renameStart old_path new_path hfree.1 hfree.2 rfl
    · cases hstep
  | renameReal ok =>
    simp only [stepFileOp] at hstep
    split at hstep
    · rename_i old_path new_path hop
      cases ok with
      | true =>
        cases hstep
        exact .renameReal old_path new_path hop rfl
      | false =>
        cases hstep
        exact .renameAbort old_path new_path hop rfl
    · cases hstep
  | renameCapture created renamed enoent =>
    simp only [stepFileOp] at hstep
    split at hstep
    · rename_i old_path new_path hop
      split at hstep
      · cases hstep
      · rename_i hexclusive
        have hexclusive : s.backup.exclusive = false := by simpa using hexclusive
        split at hstep
        · rename_i D hsession
          exact .renameCapture created renamed enoent old_path new_path D hop hexclusive hsession
            hstep
        · rename_i hsession
          cases hstep
          exact .renamePass created renamed enoent old_path new_path hop hexclusive hsession rfl
    · cases hstep
  | _ => cases hstep

/-! ## Data calls -/

inductive ThreadStep (s s' : State) : Action → Prop where
  | call (t fd : Nat) (d : Fd) (source : Ptr) : s.threads[t]? = some .idle → s.fds fd = some d →
      d.stage = .usable source → s.backup.exclusive = false →
      s' = { s with threads := s.threads.set t (.called fd source) } →
      ThreadStep s s' (.call t fd)
  | fetch (t fd : Nat) (source : Ptr) : s.threads[t]? = some (.called fd source) →
      s.backup.exclusive = false → s.session.isSome = true →
      some (s.attempt (Lib.demand (s.files.heap source) Fault.pointer) fun _ =>
        { s with threads := s.threads.set t (.fetched fd source (s.destination source)) }) =
          some s' →
      ThreadStep s s' (.fetch t)
  /-- Without a session there is nothing to fetch. -/
  | pass (t fd : Nat) (source : Ptr) : s.threads[t]? = some (.called fd source) →
      s.backup.exclusive = false → s.session = none →
      s' = { s with threads := s.threads.set t .idle } → ThreadStep s s' (.fetch t)
  | use (t fd : Nat) (source dest : Ptr) :
      s.threads[t]? = some (.fetched fd source (some dest)) → s.destination source = some dest →
      s' = { s with threads := s.threads.set t .idle } → ThreadStep s s' (.use t)
  | misuse (t fd : Nat) (source dest : Ptr) :
      s.threads[t]? = some (.fetched fd source (some dest)) → s.destination source ≠ some dest →
      s' = { s with fault := some .pointer } → ThreadStep s s' (.use t)
  | skip (t fd : Nat) (source : Ptr) : s.threads[t]? = some (.fetched fd source none) →
      s' = { s with threads := s.threads.set t .idle } → ThreadStep s s' (.use t)

theorem threadStep_of_stepThread {a : Action} (hstep : stepThread s a = some s') :
    ThreadStep s s' a := by
  cases a with
  | call t fd =>
    simp only [stepThread] at hstep
    split at hstep
    · rename_i d ht hd
      split at hstep
      · rename_i source hstage
        split at hstep
        · cases hstep
        · rename_i hexclusive
          cases hstep
          exact .call t fd d source ht hd hstage (by simpa using hexclusive) rfl
      · cases hstep
    · cases hstep
  | fetch t =>
    simp only [stepThread] at hstep
    split at hstep
    · rename_i fd source ht
      split at hstep
      · cases hstep
      · rename_i hexclusive
        have hexclusive : s.backup.exclusive = false := by simpa using hexclusive
        split at hstep
        · rename_i hsession
          exact .fetch t fd source ht hexclusive hsession hstep
        · rename_i hsession
          cases hstep
          exact .pass t fd source ht hexclusive (by simpa using hsession) rfl
    · cases hstep
  | use t =>
    simp only [stepThread] at hstep
    split at hstep
    · rename_i fd source dest ht
      split at hstep
      · rename_i hdest
        cases hstep
        exact .use t fd source dest ht hdest rfl
      · rename_i hdest
        cases hstep
        exact .misuse t fd source dest ht hdest rfl
    · rename_i fd source ht
      cases hstep
      exact .skip t fd source ht rfl
    · cases hstep
  | _ => cases hstep

/-! ## The copier -/

inductive CopierStep (hash : Path → Nat) (s : State) (c : Copier) (s' : State) :
    Action → Prop where
  | opened : c.pc = .attached → s.names c.src ≠ none →
      s' = { s with backup := .copying { c with pc := .opened } } →
      CopierStep hash s c s' (.copierOpen true)
  | skipped (ok : Bool) : c.pc = .attached → ¬ (s.names c.src ≠ none ∧ ok) →
      s' = { s with backup := .copying { c with pc := .closed } } →
      CopierStep hash s c s' (.copierOpen ok)
  | create (created : Bool) : c.pc = .opened →
      some (s.attempt (createDestination s c created) fun r =>
        { s with files := r.1, backup := .copying { c with pc := r.2 } }) = some s' →
      CopierStep hash s c s' (.copierCreate created)
  | use (dest : Ptr) : c.pc = .copying dest → s.destination c.file = some dest → s' = s →
      CopierStep hash s c s' .copierUse
  /-- The destination is not there any more. -/
  | misuse (dest : Ptr) : c.pc = .copying dest → s.destination c.file ≠ some dest →
      s' = { s with fault := some .pointer } → CopierStep hash s c s' .copierUse
  | done (ok : Bool) (dest : Ptr) : c.pc = .copying dest →
      s' = { s with backup := .copying { c with pc := if ok then .copied else .closed } } →
      CopierStep hash s c s' (.copierDone ok)
  | unhook : c.pc = .copied →
      some (s.attempt (s.files.tryToRemoveDestination c.file) fun files =>
        { s with files, backup := .copying { c with pc := .closed } }) = some s' →
      CopierStep hash s c s' .copierUnhook
  | release : c.pc = .closed →
      some (s.attempt (s.files.tryToRemove hash c.file) fun files =>
        { s with files, backup := .running }) = some s' →
      CopierStep hash s c s' .copierRelease

theorem copierStep_of_stepCopier {c : Copier} {a : Action}
    (hstep : stepCopier hash s c a = some s') : CopierStep hash s c s' a := by
  cases a with
  | copierOpen ok =>
    simp only [stepCopier] at hstep
    split at hstep
    · rename_i hpc
      split at hstep
      · rename_i hok
        obtain ⟨hname, rfl⟩ := hok
        cases hstep
        exact .opened hpc hname rfl
      · rename_i hok
        cases hstep
        exact .skipped ok hpc hok rfl
    · cases hstep
  | copierCreate created =>
    simp only [stepCopier] at hstep
    split at hstep
    · rename_i hpc
      exact .create created hpc hstep
    · cases hstep
  | copierUse =>
    simp only [stepCopier] at hstep
    split at hstep
    · rename_i dest hpc
      split at hstep
      · rename_i hdest
        cases hstep
        exact .use dest hpc hdest rfl
      · rename_i hdest
        cases hstep
        exact .misuse dest hpc hdest rfl
    · cases hstep
  | copierDone ok =>
    simp only [stepCopier] at hstep
    split at hstep
    · rename_i dest hpc
      cases hstep
      exact .done ok dest hpc rfl
    · cases hstep
  | copierUnhook =>
    simp only [stepCopier] at hstep
    split at hstep
    · rename_i hpc
      exact .unhook hpc hstep
    · cases hstep
  | copierRelease =>
    simp only [stepCopier] at hstep
    split at hstep
    · rename_i hpc
      exact .release hpc hstep
    · cases hstep
  | _ => cases hstep

/-! ## `do_backup` -/

/-- Where an iteration of the preparation goes on. -/
def State.afterPrepare (s : State) (i : Nat) (files : Files) : PrepareResult → State
  | .next => { s with files, backup := .preparing (i + 1) }
  | .out => { s with files, captureEnabled := true, backup := .running }
  | .failed => { s.backupError true with files, backup := .stopping }

inductive BackupStep (hash : Path → Nat) (s s' : State) : Action → Prop where
  | start (D : DirectorySet) : s.backup = .idle → s.noReader = true →
      s' = { s with session := some D, backup := .preparing 0 } →
      BackupStep hash s s' (.startSession D)
  | prepare (opened created : Bool) (i : Nat) (D : DirectorySet) (source : Ptr) :
      s.backup = .preparing i → s.session = some D → i < s.mapSize → s.mapped i = some source →
      some (s.attempt (prepare s D source opened created) fun r =>
        s.afterPrepare i r.1 r.2) = some s' →
      BackupStep hash s s' (.prepareNext opened created)
  /-- There is no file at the index. -/
  | prepareSkip (opened created : Bool) (i : Nat) (D : DirectorySet) :
      s.backup = .preparing i → s.session = some D → i < s.mapSize → s.mapped i = none →
      s' = { s with backup := .preparing (i + 1) } →
      BackupStep hash s s' (.prepareNext opened created)
  | prepared (opened created : Bool) (i : Nat) (D : DirectorySet) :
      s.backup = .preparing i → s.session = some D → ¬ i < s.mapSize →
      s' = { s with captureEnabled := true, backup := .running } →
      BackupStep hash s s' (.prepareNext opened created)
  | copierStart (i : Nat) (file : Path) (D : DirectorySet) (source destination : Path) :
      s.backup = .running → s.session = some D → D.dirs[i]? = some (source, destination) →
      some (s.attempt (s.files.getOrCreate hash (pathcat source file)) fun r =>
        { s with
          files := r.2
          backup := .copying
            ⟨pathcat source file, pathcat destination file, r.1, .attached⟩ }) = some s' →
      BackupStep hash s s' (.copierStart i file)
  | stopCopy : s.backup = .running → s' = { s with backup := .stopping } →
      BackupStep hash s s' .stopCopy
  | endSession : s.backup = .stopping → s.noReader = true →
      s' = { s with captureEnabled := false, backup := .disabling 0 } →
      BackupStep hash s s' .endSession
  | disable (i : Nat) (source : Ptr) : s.backup = .disabling i → i < s.mapSize →
      s.mapped i = some source →
      some (s.attempt (s.files.tryToRemoveDestination source) fun files =>
        { s with files, backup := .disabling (i + 1) }) = some s' →
      BackupStep hash s s' .disableNext
  | disableSkip (i : Nat) : s.backup = .disabling i → i < s.mapSize → s.mapped i = none →
      s' = { s with backup := .disabling (i + 1) } → BackupStep hash s s' .disableNext
  | disabled (i : Nat) : s.backup = .disabling i → ¬ i < s.mapSize →
      s' = { s with session := none, backup := .idle } → BackupStep hash s s' .disableNext
  | error : s' = s.backupError true → BackupStep hash s s' .error
  | copier (c : Copier) (a : Action) : s.backup = .copying c → CopierStep hash s c s' a →
      BackupStep hash s s' a

theorem backupStep_of_stepBackup {a : Action} (hstep : stepBackup hash s a = some s') :
    BackupStep hash s s' a := by
  have hcopier : ∀ a, copierStep hash s a = some s' → BackupStep hash s s' a := by
    intro a hstep
    obtain ⟨c, hc, hstep⟩ := copierStep_some hstep
    exact .copier c a hc (copierStep_of_stepCopier hstep)
  cases a with
  | startSession D =>
    simp only [stepBackup] at hstep
    split at hstep
    · rename_i hidle
      split at hstep
      · rename_i hreader
        cases hstep
        exact .start D hidle hreader rfl
      · cases hstep
    · cases hstep
  | prepareNext opened created =>
    simp only [stepBackup] at hstep
    split at hstep
    · rename_i i D hi hsession
      split at hstep
      · rename_i hlt
        split at hstep
        · rename_i source hmapped
          refine .prepare opened created i D source hi hsession hlt hmapped (Eq.trans ?_ hstep)
          refine congrArg (fun k => some (s.attempt (prepare s D source opened created) k)) ?_
          funext ⟨files, result⟩
          cases result with
          | next => rfl
          | out => rfl
          | failed => rfl
        · rename_i hmapped
          cases hstep
          exact .prepareSkip opened created i D hi hsession hlt hmapped rfl
      · rename_i hge
        cases hstep
        exact .prepared opened created i D hi hsession hge rfl
    · cases hstep
  | copierStart i file =>
    simp only [stepBackup] at hstep
    split at hstep
    · rename_i D hrunning hsession
      split at hstep
      · rename_i source destination hdir
        exact .copierStart i file D source destination hrunning hsession hdir hstep
      · cases hstep
    · cases hstep
  | stopCopy =>
    simp only [stepBackup] at hstep
    split at hstep
    · rename_i hrunning
      cases hstep
      exact .stopCopy hrunning rfl
    · cases hstep
  | endSession =>
    simp only [stepBackup] at hstep
    split at hstep
    · rename_i hstopping
      split at hstep
      · rename_i hreader
        cases hstep
        exact .endSession hstopping hreader rfl
      · cases hstep
    · cases hstep
  | disableNext =>
    simp only [stepBackup] at hstep
    split at hstep
    · rename_i i hi
      split at hstep
      · rename_i hlt
        split at hstep
        · rename_i source hmapped
          exact .disable i source hi hlt hmapped hstep
        · rename_i hmapped
          cases hstep
          exact .disableSkip i hi hlt hmapped rfl
      · rename_i hge
        cases hstep
        exact .disabled i hi hge rfl
    · cases hstep
  | error =>
    cases hstep
    exact .error rfl
  | _ => exact hcopier _ hstep

end TokuBackup.Lifecycle
