import TokuBackup.Lifecycle.BaseSteps

/-!
# What steps leave alone

The data calls, the closes and the backup thread touch no name of the source and no
operation on one. A close moves its fd on, and an fd that it moves keeps its reference or
gives it back. `Opens` lists what a step of `open` does to the names and the fds.
-/

namespace TokuBackup.Lifecycle

open Kernel Table Lib

section

variable {hash : Path → Nat} {s s' : State} {p : Ptr}

/-- The state `s'` has the names of `s`, and the same operation is in flight. -/
structure SameNames (s s' : State) : Prop where
  names : s'.names = s.names
  freshInode : s'.freshInode = s.freshInode
  fileOp : s'.fileOp = s.fileOp

/-- After an update of the fds, an fd is the updated one or was there before. -/
theorem fd_of_update {fd fd' : Nat} {o : Option Fd} {d' : Fd}
    (hfds : s'.fds = Function.update s.fds fd o) (hd' : s'.fds fd' = some d') :
    fd' = fd ∧ o = some d' ∨ s.fds fd' = some d' := by
  rw [hfds, Function.update_apply] at hd'
  split at hd'
  · rename_i hfd
    exact Or.inl ⟨hfd, hd'⟩
  · exact Or.inr hd'

theorem fd_of_erase {fd fd' : Nat} {d' : Fd} (hfds : s'.fds = Function.update s.fds fd none)
    (hd' : s'.fds fd' = some d') : s.fds fd' = some d' := by
  obtain ⟨-, h⟩ | hd := fd_of_update hfds hd'
  · cases h
  · exact hd

theorem fd_of_open {fd fd' : Nat} {path : Path} {i : Inode} {d' : Fd}
    (hfds : s'.fds = Function.update s.fds fd (some ⟨path, i, .opened⟩))
    (hd' : s'.fds fd' = some d') :
    fd' = fd ∧ d'.path = path ∧ d'.inode = i ∨ s.fds fd' = some d' := by
  obtain ⟨hfd', hnew⟩ | hold := fd_of_update hfds hd'
  · cases hnew
    exact Or.inl ⟨hfd', rfl, rfl⟩
  · exact Or.inr hold

/-- A new fd has no source file yet. -/
theorem fd_of_source {fd fd' : Nat} {o : Option Fd} {d' : Fd}
    (hfds : s'.fds = Function.update s.fds fd o)
    (ho : ∀ d p, o = some d → d.stage.source ≠ some p) (hd' : s'.fds fd' = some d')
    (hp : d'.stage.source = some p) : s.fds fd' = some d' := by
  obtain ⟨-, h⟩ | hd := fd_of_update hfds hd'
  · exact absurd hp (ho d' p h)
  · exact hd

/-- An fd that moves on keeps its path and its file, as every other fd does. -/
theorem fd_of_move {fd fd' : Nat} {d d' : Fd} {stage : FdStage} (hd : s.fds fd = some d)
    (hfds : s'.fds = Function.update s.fds fd (some { d with stage }))
    (hd' : s'.fds fd' = some d') :
    ∃ e, s.fds fd' = some e ∧ d'.path = e.path ∧ d'.inode = e.inode := by
  obtain ⟨rfl, h⟩ | he := fd_of_update hfds hd'
  · cases h
    exact ⟨d, hd, rfl, rfl⟩
  · exact ⟨d', he, rfl, rfl⟩

/-- Each fd of `s'` is one of `s`, for the same path and file, with its reference or
without. -/
def Closes (s s' : State) : Prop :=
  ∀ fd d', s'.fds fd = some d' → ∃ d, s.fds fd = some d ∧ d'.path = d.path ∧
    d'.inode = d.inode ∧ ∀ p, d'.stage.source = some p → d.stage.source = some p

theorem Closes.of_eq (h : s'.fds = s.fds) : Closes s s' := by
  intro fd d' hd'
  rw [h] at hd'
  exact ⟨d', hd', rfl, rfl, fun _ hp => hp⟩

theorem closes_moveFd {fd : Nat} {d : Fd} {stage : FdStage} (hd : s.fds fd = some d)
    (hstage : ∀ p, stage.source = some p → d.stage.source = some p)
    (hfds : s'.fds = Function.update s.fds fd (some { d with stage })) : Closes s s' := by
  intro fd' d' hd'
  obtain ⟨rfl, h⟩ | he := fd_of_update hfds hd'
  · cases h
    exact ⟨d, hd, rfl, rfl, hstage⟩
  · exact ⟨d', he, rfl, rfl, fun _ hp => hp⟩

theorem stepClose_frame {a : Action} (hstep : stepClose hash s a = some s') :
    SameNames s s' ∧ Closes s s' ∧ s'.threads = s.threads ∧ s'.session = s.session ∧
      s'.captureEnabled = s.captureEnabled ∧ s'.backup = s.backup ∧ s'.mapSize = s.mapSize := by
  have hkeep : ∀ (files : Files) (stage : FdStage) {fd : Nat} {d : Fd}, s.fds fd = some d →
      (∀ p, stage.source = some p → d.stage.source = some p) →
      let t := ({ s with files } : State).moveFd fd d stage
      SameNames s t ∧ Closes s t ∧ t.threads = s.threads ∧ t.session = s.session ∧
        t.captureEnabled = s.captureEnabled ∧ t.backup = s.backup ∧ t.mapSize = s.mapSize := by
    intro files stage fd d hd hstage
    exact ⟨⟨rfl, rfl, rfl⟩, closes_moveFd hd hstage rfl, rfl, rfl, rfl, rfl, rfl⟩
  have hfault : ∀ e, let t : State := { s with fault := some e }
      SameNames s t ∧ Closes s t ∧ t.threads = s.threads ∧ t.session = s.session ∧
        t.captureEnabled = s.captureEnabled ∧ t.backup = s.backup ∧ t.mapSize = s.mapSize := by
    intro e
    exact ⟨⟨rfl, rfl, rfl⟩, Closes.of_eq rfl, rfl, rfl, rfl, rfl, rfl⟩
  cases closeStep_of_stepClose hstep with
  | begin fd d source hd hstage _ hs' =>
    subst hs'
    exact hkeep s.files (.closing source) hd fun p hp => by rw [hstage]; exact hp
  | unhook fd d source hd hstage _ _ hsection =>
    obtain ⟨e, rfl⟩ | ⟨F, -, rfl⟩ := State.attempt_cases hsection
    · exact hfault e
    · exact hkeep F (.unhooked source) hd fun p hp => by rw [hstage]; exact hp
  | pass fd d source hd hstage _ _ hs' =>
    subst hs'
    exact hkeep s.files (.unhooked source) hd fun p hp => by rw [hstage]; exact hp
  | erase fd d source hd hstage _ hs' =>
    subst hs'
    exact hkeep s.files (.erased source) hd fun p hp => by rw [hstage]; exact hp
  | release fd d source hd _ hsection =>
    obtain ⟨e, rfl⟩ | ⟨F, -, rfl⟩ := State.attempt_cases hsection
    · exact hfault e
    · exact hkeep F .released hd fun p hp => by cases hp
  | real fd d _ _ hs' =>
    subst hs'
    refine ⟨⟨rfl, rfl, rfl⟩, fun fd' d' hd' => ?_, rfl, rfl, rfl, rfl, rfl⟩
    exact ⟨d', fd_of_erase rfl hd', rfl, rfl, fun _ hp => hp⟩

/-- A close moves one fd, whose `open` has got a source file; only its beginning moves an fd
that is in use. -/
theorem stepClose_moves {a : Action} (hstep : stepClose hash s a = some s') :
    s'.fds = s.fds ∨ ∃ fd d o, s.fds fd = some d ∧ d.stage ≠ .opened ∧
      (∀ p, d.stage = .usable p → a = .closeBegin fd) ∧
        (∀ d' p, o = some d' → d'.stage ≠ .usable p) ∧
      s'.fds = Function.update s.fds fd o := by
  cases closeStep_of_stepClose hstep with
  | begin fd d source hd hstage _ hs' =>
    subst hs'
    exact Or.inr ⟨fd, d, _, hd, by simp [hstage], fun _ _ => rfl, by rintro d' p ⟨⟩; simp, rfl⟩
  | unhook fd d source hd hstage _ _ hsection =>
    obtain ⟨e, rfl⟩ | ⟨F, -, rfl⟩ := State.attempt_cases hsection
    · exact Or.inl rfl
    · exact Or.inr ⟨fd, d, _, hd, by simp [hstage], by simp [hstage], by rintro d' p ⟨⟩; simp, rfl⟩
  | pass fd d source hd hstage _ _ hs' =>
    subst hs'
    exact Or.inr ⟨fd, d, _, hd, by simp [hstage], by simp [hstage], by rintro d' p ⟨⟩; simp, rfl⟩
  | erase fd d source hd hstage _ hs' =>
    subst hs'
    exact Or.inr ⟨fd, d, _, hd, by simp [hstage], by simp [hstage], by rintro d' p ⟨⟩; simp, rfl⟩
  | release fd d source hd hstage hsection =>
    obtain ⟨e, rfl⟩ | ⟨F, -, rfl⟩ := State.attempt_cases hsection
    · exact Or.inl rfl
    · exact Or.inr ⟨fd, d, _, hd, by simp [hstage], by simp [hstage], by rintro d' p ⟨⟩; simp, rfl⟩
  | real fd d hd hstage hs' =>
    subst hs'
    exact Or.inr ⟨fd, d, _, hd, by simp [hstage], by simp [hstage], by rintro d' p ⟨⟩, rfl⟩

/-- Only the beginning of a close moves an fd that is in use. -/
theorem stepClose_usable {a : Action} (hstep : stepClose hash s a = some s') {fd : Nat} {d : Fd}
    (hd : s.fds fd = some d) (hstage : d.stage = .usable p) (ha : a ≠ .closeBegin fd) :
    s'.fds fd = some d := by
  obtain hfds | ⟨fd', d', o, hd', -, hbegin, -, hfds⟩ := stepClose_moves hstep
  · rw [hfds, hd]
  · rw [hfds, Function.update_of_ne, hd]
    intro hfd
    rw [← hfd, hd] at hd'
    cases hd'
    rw [← hfd] at hbegin
    exact ha (hbegin p hstage)

theorem stepThread_frame {a : Action} (hstep : stepThread s a = some s') :
    SameNames s s' ∧ s'.fds = s.fds ∧ s'.files = s.files ∧ s'.session = s.session ∧
      s'.captureEnabled = s.captureEnabled ∧ s'.backup = s.backup ∧ s'.mapSize = s.mapSize := by
  cases threadStep_of_stepThread hstep with
  | call t fd d source _ _ _ _ hs' =>
    subst hs'
    exact ⟨⟨rfl, rfl, rfl⟩, rfl, rfl, rfl, rfl, rfl, rfl⟩
  | fetch t fd source _ _ _ hsection =>
    obtain ⟨e, rfl⟩ | ⟨f, -, rfl⟩ := State.attempt_cases hsection
    · exact ⟨⟨rfl, rfl, rfl⟩, rfl, rfl, rfl, rfl, rfl, rfl⟩
    · exact ⟨⟨rfl, rfl, rfl⟩, rfl, rfl, rfl, rfl, rfl, rfl⟩
  | pass t fd source _ _ _ hs' =>
    subst hs'
    exact ⟨⟨rfl, rfl, rfl⟩, rfl, rfl, rfl, rfl, rfl, rfl⟩
  | use t fd source dest _ _ hs' =>
    subst hs'
    exact ⟨⟨rfl, rfl, rfl⟩, rfl, rfl, rfl, rfl, rfl, rfl⟩
  | misuse t fd source dest _ _ hs' =>
    subst hs'
    exact ⟨⟨rfl, rfl, rfl⟩, rfl, rfl, rfl, rfl, rfl, rfl⟩
  | skip t fd source _ hs' =>
    subst hs'
    exact ⟨⟨rfl, rfl, rfl⟩, rfl, rfl, rfl, rfl, rfl, rfl⟩

theorem copierStep_frame {c : Copier} {a : Action} (hstep : CopierStep hash s c s' a) :
    SameNames s s' ∧ s'.fds = s.fds ∧ s'.threads = s.threads ∧ s'.mapSize = s.mapSize ∧
      s'.session = s.session := by
  have hfault : ∀ e, let t : State := { s with fault := some e }
      SameNames s t ∧ t.fds = s.fds ∧ t.threads = s.threads ∧ t.mapSize = s.mapSize ∧
        t.session = s.session := fun e => ⟨⟨rfl, rfl, rfl⟩, rfl, rfl, rfl, rfl⟩
  have hmove : ∀ files backup, let t : State := { s with files := files, backup := backup }
      SameNames s t ∧ t.fds = s.fds ∧ t.threads = s.threads ∧ t.mapSize = s.mapSize ∧
        t.session = s.session := fun _ _ => ⟨⟨rfl, rfl, rfl⟩, rfl, rfl, rfl, rfl⟩
  cases hstep with
  | opened _ _ hs' =>
    subst hs'
    exact hmove _ _
  | skipped ok _ _ hs' =>
    subst hs'
    exact hmove _ _
  | create created _ hsection =>
    obtain ⟨e, rfl⟩ | ⟨r, -, rfl⟩ := State.attempt_cases hsection
    · exact hfault e
    · exact hmove _ _
  | use dest _ _ hs' =>
    subst hs'
    exact hmove _ _
  | misuse dest _ _ hs' =>
    subst hs'
    exact hfault _
  | done ok dest _ hs' =>
    subst hs'
    exact hmove _ _
  | unhook _ hsection =>
    obtain ⟨e, rfl⟩ | ⟨F, -, rfl⟩ := State.attempt_cases hsection
    · exact hfault e
    · exact hmove _ _
  | release _ hsection =>
    obtain ⟨e, rfl⟩ | ⟨F, -, rfl⟩ := State.attempt_cases hsection
    · exact hfault e
    · exact hmove _ _

theorem stepBackup_frame {a : Action} (hstep : stepBackup hash s a = some s') :
    SameNames s s' ∧ s'.fds = s.fds ∧ s'.threads = s.threads ∧ s'.mapSize = s.mapSize := by
  have hfault : ∀ e, let t : State := { s with fault := some e }
      SameNames s t ∧ t.fds = s.fds ∧ t.threads = s.threads ∧ t.mapSize = s.mapSize :=
    fun e => ⟨⟨rfl, rfl, rfl⟩, rfl, rfl, rfl⟩
  have hmove : ∀ files session capture backup,
      let t : State := { s with
        files := files
        session := session
        captureEnabled := capture
        backup := backup }
      SameNames s t ∧ t.fds = s.fds ∧ t.threads = s.threads ∧ t.mapSize = s.mapSize :=
    fun _ _ _ _ => ⟨⟨rfl, rfl, rfl⟩, rfl, rfl, rfl⟩
  cases backupStep_of_stepBackup hstep with
  | start D _ _ hs' =>
    subst hs'
    exact hmove _ _ _ _
  | prepare opened created i D source _ _ _ _ hsection =>
    obtain ⟨e, rfl⟩ | ⟨⟨files, result⟩, -, rfl⟩ := State.attempt_cases hsection
    · exact hfault e
    · cases result with
      | next => exact hmove _ _ _ _
      | out => exact hmove _ _ _ _
      | failed => exact hmove _ _ _ _
  | prepareSkip opened created i D _ _ _ _ hs' =>
    subst hs'
    exact hmove _ _ _ _
  | prepared opened created i D _ _ _ hs' =>
    subst hs'
    exact hmove _ _ _ _
  | copierStart i file D source destination _ _ _ hsection =>
    obtain ⟨e, rfl⟩ | ⟨r, -, rfl⟩ := State.attempt_cases hsection
    · exact hfault e
    · exact hmove _ _ _ _
  | stopCopy _ hs' =>
    subst hs'
    exact hmove _ _ _ _
  | endSession _ _ hs' =>
    subst hs'
    exact hmove _ _ _ _
  | disable i source _ _ _ hsection =>
    obtain ⟨e, rfl⟩ | ⟨F, -, rfl⟩ := State.attempt_cases hsection
    · exact hfault e
    · exact hmove _ _ _ _
  | disableSkip i _ _ _ hs' =>
    subst hs'
    exact hmove _ _ _ _
  | disabled i _ _ hs' =>
    subst hs'
    exact hmove _ _ _ _
  | error hs' =>
    subst hs'
    exact hmove _ _ _ _
  | copier c a _ hcopier =>
    obtain ⟨hnames, hfds, hthreads, hsize, -⟩ := copierStep_frame hcopier
    exact ⟨hnames, hfds, hthreads, hsize⟩

/-- The copier is at the file at which it was, or it has just got to it. -/
inductive CopierFrom (hash : Path → Nat) (s : State) (a : Action) (s' : State) (c' : Copier) :
    Prop where
  | stays (c : Copier) : s.backup = .copying c → c'.src = c.src → c'.dst = c.dst →
      c'.file = c.file → CopierFrom hash s a s' c'
  | starts (i : Nat) (file source destination : Path) (D : DirectorySet) :
      a = .copierStart i file → s.session = some D → D.dirs[i]? = some (source, destination) →
      c'.src = pathcat source file → c'.dst = pathcat destination file →
      s.files.getOrCreate hash c'.src = .ok (c'.file, s'.files) → CopierFrom hash s a s' c'

theorem copierStep_from {c : Copier} (hc : s.backup = .copying c) {a : Action}
    (hstep : CopierStep hash s c s' a) {c' : Copier} (hc' : s'.backup = .copying c') :
    CopierFrom hash s a s' c' := by
  have hfault : ∀ e, s' = { s with fault := some e } → CopierFrom hash s a s' c' := by
    rintro e rfl
    exact .stays c' hc' rfl rfl rfl
  have hmove : ∀ files pc, s' = { s with files := files, backup := .copying { c with pc } } →
      CopierFrom hash s a s' c' := by
    rintro files pc rfl
    cases hc'
    exact .stays c hc rfl rfl rfl
  cases hstep with
  | opened _ _ hs' => exact hmove s.files _ hs'
  | skipped ok _ _ hs' => exact hmove s.files _ hs'
  | create created _ hsection =>
    obtain ⟨e, hs'⟩ | ⟨r, -, hs'⟩ := State.attempt_cases hsection
    · exact hfault e hs'
    · exact hmove _ _ hs'
  | use dest _ _ hs' =>
    subst hs'
    exact .stays c' hc' rfl rfl rfl
  | misuse dest _ _ hs' => exact hfault _ hs'
  | done ok dest _ hs' => exact hmove s.files _ hs'
  | unhook _ hsection =>
    obtain ⟨e, hs'⟩ | ⟨F, -, hs'⟩ := State.attempt_cases hsection
    · exact hfault e hs'
    · exact hmove _ _ hs'
  | release _ hsection =>
    obtain ⟨e, hs'⟩ | ⟨F, -, rfl⟩ := State.attempt_cases hsection
    · exact hfault e hs'
    · cases hc'

/-- A session is started, or ended, or goes on. -/
inductive SessionFrom (s : State) (a : Action) (s' : State) : Prop where
  | same : s'.session = s.session → SessionFrom s a s'
  | started (D : DirectorySet) : a = .startSession D → s.backup = .idle → s'.session = some D →
      s'.files = s.files → SessionFrom s a s'
  | ended : s'.session = none → SessionFrom s a s'

theorem stepBackup_from {a : Action} (hstep : stepBackup hash s a = some s') :
    SessionFrom s a s' ∧ ∀ c', s'.backup = .copying c' →
      s'.session = s.session ∧ CopierFrom hash s a s' c' := by
  have hfault : ∀ e, s' = { s with fault := some e } → SessionFrom s a s' ∧
      ∀ c', s'.backup = .copying c' → s'.session = s.session ∧ CopierFrom hash s a s' c' := by
    rintro e rfl
    exact ⟨.same rfl, fun c' hc' => ⟨rfl, .stays c' hc' rfl rfl rfl⟩⟩
  have hidle : SessionFrom s a s' → (∀ c', s'.backup ≠ .copying c') → SessionFrom s a s' ∧
      ∀ c', s'.backup = .copying c' → s'.session = s.session ∧ CopierFrom hash s a s' c' :=
    fun hfrom hbackup => ⟨hfrom, fun c' hc' => absurd hc' (hbackup c')⟩
  cases backupStep_of_stepBackup hstep with
  | start D hbackup _ hs' =>
    subst hs'
    exact hidle (.started D rfl hbackup rfl rfl) (by simp)
  | prepare opened created i D source _ _ _ _ hsection =>
    obtain ⟨e, hs'⟩ | ⟨⟨files, result⟩, -, rfl⟩ := State.attempt_cases hsection
    · exact hfault e hs'
    · cases result with
      | next => exact hidle (.same rfl) (by simp [State.afterPrepare])
      | out => exact hidle (.same rfl) (by simp [State.afterPrepare])
      | failed => exact hidle (.same rfl) (by simp [State.afterPrepare])
  | prepareSkip opened created i D _ _ _ _ hs' =>
    subst hs'
    exact hidle (.same rfl) (by simp)
  | prepared opened created i D _ _ _ hs' =>
    subst hs'
    exact hidle (.same rfl) (by simp)
  | copierStart i file D source destination _ hsession hdir hsection =>
    obtain ⟨e, hs'⟩ | ⟨⟨p, F⟩, hrun, rfl⟩ := State.attempt_cases hsection
    · exact hfault e hs'
    · refine ⟨.same rfl, fun c' hc' => ⟨rfl, ?_⟩⟩
      cases hc'
      exact .starts i file source destination D rfl hsession hdir rfl rfl hrun
  | stopCopy _ hs' =>
    subst hs'
    exact hidle (.same rfl) (by simp)
  | endSession _ _ hs' =>
    subst hs'
    exact hidle (.same rfl) (by simp)
  | disable i source _ _ _ hsection =>
    obtain ⟨e, hs'⟩ | ⟨F, -, rfl⟩ := State.attempt_cases hsection
    · exact hfault e hs'
    · exact hidle (.same rfl) (by simp)
  | disableSkip i _ _ _ hs' =>
    subst hs'
    exact hidle (.same rfl) (by simp)
  | disabled i _ _ hs' =>
    subst hs'
    exact hidle (.ended rfl) (by simp)
  | error hs' =>
    subst hs'
    exact ⟨.same rfl, fun c' hc' => ⟨rfl, .stays c' hc' rfl rfl rfl⟩⟩
  | copier c a hc hcopier =>
    obtain ⟨-, -, -, -, hsession⟩ := copierStep_frame hcopier
    exact ⟨.same hsession, fun c' hc' => ⟨hsession, copierStep_from hc hcopier hc'⟩⟩

/-- What a step of `open` does to the names, the fds and the operation in flight. -/
inductive Opens (hash : Path → Nat) (s : State) (a : Action) (s' : State) : Prop where
  | failed : SameNames s s' → s'.fds = s.fds → Opens hash s a s'
  /-- The real `open` of a file that exists. -/
  | found (fd : Nat) (path : Path) (i : Inode) : s.fds fd = none → s.names path = some i →
      s'.fds = Function.update s.fds fd (some ⟨path, i, .opened⟩) → s'.names = s.names →
      s'.freshInode = s.freshInode →
      (s'.fileOp = s.fileOp ∨ s.fileOp = .free ∧ s'.fileOp = .creating fd) → Opens hash s a s'
  /-- The real `open` makes a new file. -/
  | new (fd : Nat) (path : Path) : s.fds fd = none → s.names path = none → s.fileOp = .free →
      s'.fds = Function.update s.fds fd (some ⟨path, s.freshInode, .opened⟩) →
      s'.names = Function.update s.names path (some s.freshInode) →
      s'.freshInode = s.freshInode + 1 → s'.fileOp = .creating fd → Opens hash s a s'
  /-- `realpath` fails. -/
  | untracked (fd : Nat) (d : Fd) : s.fds fd = some d → d.stage = .opened →
    s'.fds = Function.update s.fds fd none → s'.names = s.names →
      s'.freshInode = s.freshInode → s'.fileOp = s.fileOp.unlock fd → Opens hash s a s'
  | attached (fd : Nat) (d : Fd) (p : Ptr) : a = .openAttach fd → s.fds fd = some d →
    d.stage = .opened →
      s.names d.path ≠ none → s.files.getOrCreate hash d.path = .ok (p, s'.files) →
      s'.fds = Function.update s.fds fd (some { d with stage := .attached p }) → SameNames s s' →
      Opens hash s a s'
  | moved (fd : Nat) (d : Fd) (stage : FdStage) : s.fds fd = some d →
      (∃ p, (d.stage = .attached p ∧ stage = .published p) ∨
        (d.stage = .published p ∧ stage = .usable p)) →
      s'.fds = Function.update s.fds fd (some { d with stage }) → s'.names = s.names →
      s'.freshInode = s.freshInode →
      (s'.fileOp = s.fileOp ∨ s'.fileOp = s.fileOp.unlock fd) → Opens hash s a s'

/-- The stages of an `open` after the table's keep the source file. -/
theorem source_of_move {stage stage' : FdStage}
    (hmove : ∃ p, (stage = .attached p ∧ stage' = .published p) ∨
      (stage = .published p ∧ stage' = .usable p)) : stage'.source = stage.source := by
  obtain ⟨p, ⟨rfl, rfl⟩ | ⟨rfl, rfl⟩⟩ := hmove
  · rfl
  · rfl

theorem stepOpen_opens {a : Action} (hstep : stepOpen hash s a = some s') : Opens hash s a s' := by
  cases openStep_of_stepOpen hstep with
  | existing fd path i hfd hi hs' =>
    subst hs'
    exact Opens.found fd path i hfd hi rfl rfl rfl (Or.inl rfl)
  | found fd path i hfd hfree hi hs' =>
    subst hs'
    exact Opens.found fd path i hfd hi rfl rfl rfl (Or.inr ⟨hfree, rfl⟩)
  | new fd path hfd hfree hnone hs' =>
    subst hs'
    exact Opens.new fd path hfd hnone hfree rfl rfl rfl rfl
  | untracked fd d hd hstage _ hs' =>
    subst hs'
    exact Opens.untracked fd d hd hstage rfl rfl rfl rfl
  | attach fd d hd hstage hname hsection =>
    obtain ⟨e, rfl⟩ | ⟨⟨p, F⟩, hrun, rfl⟩ := State.attempt_cases hsection
    · exact Opens.failed ⟨rfl, rfl, rfl⟩ rfl
    · exact Opens.attached fd d p rfl hd hstage hname hrun rfl ⟨rfl, rfl, rfl⟩
  | publish fd d source hd hstage _ hs' =>
    subst hs'
    exact Opens.moved fd d (.published source) hd ⟨source, Or.inl ⟨hstage, rfl⟩⟩ rfl rfl rfl
      (Or.inl rfl)
  | capture fd opened created d source captured hd hstage _ _ hsection =>
    obtain ⟨e, rfl⟩ | ⟨r, -, rfl⟩ := State.attempt_cases hsection
    · exact Opens.failed ⟨rfl, rfl, rfl⟩ rfl
    · exact Opens.moved fd d (.usable source) hd ⟨source, Or.inr ⟨hstage, rfl⟩⟩ rfl rfl rfl
        (Or.inr rfl)

/-- `open` leaves the fds alone that are in use. -/
theorem Opens.usable {a : Action} (h : Opens hash s a s')
    {fd : Nat} {d : Fd} (hd : s.fds fd = some d)
    (hstage : d.stage = .usable p) : s'.fds fd = some d := by
  have hother : ∀ fd' (o : Option Fd), s'.fds = Function.update s.fds fd' o →
      (∀ d', s.fds fd' = some d' → d'.stage ≠ .usable p) → s'.fds fd = some d := by
    intro fd' o hfds hne
    rw [hfds, Function.update_of_ne, hd]
    intro hfd
    exact hne d (hfd ▸ hd) hstage
  cases h with
  | failed _ hfds => rw [hfds, hd]
  | found fd' path i hnone _ hfds =>
    refine hother fd' _ hfds fun d' hd' => ?_
    rw [hnone] at hd'
    cases hd'
  | new fd' path hnone _ _ hfds =>
    refine hother fd' _ hfds fun d' hd' => ?_
    rw [hnone] at hd'
    cases hd'
  | untracked fd' d' hd' hopened hfds =>
    refine hother fd' _ hfds fun d'' hd'' => ?_
    cases hd'.symm.trans hd''
    simp [hopened]
  | attached fd' d' q _ hd' hopened _ _ hfds =>
    refine hother fd' _ hfds fun d'' hd'' => ?_
    cases hd'.symm.trans hd''
    simp [hopened]
  | moved fd' d' stage hd' hmove hfds =>
    refine hother fd' _ hfds fun d'' hd'' => ?_
    cases hd'.symm.trans hd''
    obtain ⟨q, ⟨hq, -⟩ | ⟨hq, -⟩⟩ := hmove
    · simp [hq]
    · simp [hq]

/-- Only `setup_description_and_source_file` moves an fd that has just been opened. -/
theorem stepOpen_opened {a : Action} (hstep : stepOpen hash s a = some s')
    (ha : ∀ fd, a ≠ .openAttach fd) {fd : Nat} {d : Fd} (hd : s.fds fd = some d)
    (hopened : d.stage = .opened) : s'.fds fd = some d := by
  have hother : ∀ fd' (o : Option Fd), (∀ d', s.fds fd' = some d' → d'.stage ≠ .opened) →
      Function.update s.fds fd' o fd = some d := by
    intro fd' o hne
    rw [Function.update_of_ne, hd]
    intro hfd
    exact hne d (hfd ▸ hd) hopened
  have hnew : ∀ fd' (o : Option Fd), s.fds fd' = none →
    Function.update s.fds fd' o fd = some d := by
    intro fd' o hnone
    refine hother fd' o fun d' hd' => ?_
    rw [hnone] at hd'
    cases hd'
  cases openStep_of_stepOpen hstep with
  | existing fd' path i hnone _ hs' =>
    subst hs'
    exact hnew fd' _ hnone
  | found fd' path i hnone _ _ hs' =>
    subst hs'
    exact hnew fd' _ hnone
  | new fd' path hnone _ _ hs' =>
    subst hs'
    exact hnew fd' _ hnone
  | untracked fd' => exact absurd rfl (ha fd')
  | attach fd' => exact absurd rfl (ha fd')
  | publish fd' d' source hd' hstage _ hs' =>
    subst hs'
    refine hother fd' _ fun d'' hd'' => ?_
    cases hd'.symm.trans hd''
    simp [hstage]
  | capture fd' opened created d' source captured hd' hstage _ _ hsection =>
    obtain ⟨e, rfl⟩ | ⟨r, -, rfl⟩ := State.attempt_cases hsection
    · exact hd
    · refine hother fd' _ fun d'' hd'' => ?_
      cases hd'.symm.trans hd''
      simp [hstage]

theorem stepOpen_frame {a : Action} (hstep : stepOpen hash s a = some s') :
    s'.threads = s.threads ∧ s'.session = s.session ∧ s'.backup = s.backup := by
  cases openStep_of_stepOpen hstep with
  | existing fd path i _ _ hs' =>
    subst hs'
    exact ⟨rfl, rfl, rfl⟩
  | found fd path i _ _ _ hs' =>
    subst hs'
    exact ⟨rfl, rfl, rfl⟩
  | new fd path _ _ _ hs' =>
    subst hs'
    exact ⟨rfl, rfl, rfl⟩
  | untracked fd d _ _ _ hs' =>
    subst hs'
    exact ⟨rfl, rfl, rfl⟩
  | attach fd d _ _ _ hsection =>
    obtain ⟨e, rfl⟩ | ⟨r, -, rfl⟩ := State.attempt_cases hsection
    · exact ⟨rfl, rfl, rfl⟩
    · exact ⟨rfl, rfl, rfl⟩
  | publish fd d source _ _ _ hs' =>
    subst hs'
    exact ⟨rfl, rfl, rfl⟩
  | capture fd opened created d source captured _ _ _ _ hsection =>
    obtain ⟨e, rfl⟩ | ⟨r, -, rfl⟩ := State.attempt_cases hsection
    · exact ⟨rfl, rfl, rfl⟩
    · exact ⟨rfl, rfl, rfl⟩

theorem FileOp.unlock_cases {op op' : FileOp} {fd : Nat} (h : op.unlock fd = op') :
    op' = .free ∨ op' = op := by
  rw [FileOp.unlock] at h
  split at h
  · exact Or.inl h.symm
  · exact Or.inr h.symm

theorem stepFileOp_frame {a : Action} (hstep : stepFileOp hash s a = some s') :
    s'.fds = s.fds ∧ s'.freshInode = s.freshInode ∧ s'.threads = s.threads ∧
      s'.session = s.session ∧ s'.backup = s.backup ∧ s'.mapSize = s.mapSize := by
  cases fileOpStep_of_stepFileOp hstep with
  | unlinkStart path _ _ hs' =>
    subst hs'
    exact ⟨rfl, rfl, rfl, rfl, rfl, rfl⟩
  | unlinkReal path _ hs' =>
    subst hs'
    exact ⟨rfl, rfl, rfl, rfl, rfl, rfl⟩
  | unlinkAbort path _ hs' =>
    subst hs'
    exact ⟨rfl, rfl, rfl, rfl, rfl, rfl⟩
  | unlinkHold path _ hsection =>
    obtain ⟨e, rfl⟩ | ⟨r, -, rfl⟩ := State.attempt_cases hsection
    · exact ⟨rfl, rfl, rfl, rfl, rfl, rfl⟩
    · exact ⟨rfl, rfl, rfl, rfl, rfl, rfl⟩
  | unlinkFinish created unlinked path source _ _ hsection =>
    obtain ⟨e, rfl⟩ | ⟨r, -, rfl⟩ := State.attempt_cases hsection
    · exact ⟨rfl, rfl, rfl, rfl, rfl, rfl⟩
    · exact ⟨rfl, rfl, rfl, rfl, rfl, rfl⟩
  | renameStart old_path new_path _ _ hs' =>
    subst hs'
    exact ⟨rfl, rfl, rfl, rfl, rfl, rfl⟩
  | renameReal old_path new_path _ hs' =>
    subst hs'
    exact ⟨rfl, rfl, rfl, rfl, rfl, rfl⟩
  | renameAbort old_path new_path _ hs' =>
    subst hs'
    exact ⟨rfl, rfl, rfl, rfl, rfl, rfl⟩
  | renameCapture created renamed enoent old_path new_path D _ _ _ hsection =>
    obtain ⟨e, rfl⟩ | ⟨r, -, rfl⟩ := State.attempt_cases hsection
    · exact ⟨rfl, rfl, rfl, rfl, rfl, rfl⟩
    · exact ⟨rfl, rfl, rfl, rfl, rfl, rfl⟩
  | renamePass created renamed enoent old_path new_path _ _ _ hs' =>
    subst hs'
    exact ⟨rfl, rfl, rfl, rfl, rfl, rfl⟩

/-- What a step of `unlink` or `rename` does to the names and the operation in flight. -/
inductive Operates (hash : Path → Nat) (s : State) (a : Action) (s' : State) : Prop where
  | failed : SameNames s s' → s'.files = s.files → Operates hash s a s'
  | unlinkStart (path : Path) : s.fileOp = .free → s'.fileOp = .unlinking path →
      s'.names = s.names → Operates hash s a s'
  /-- The real call fails. -/
  | aborted : (∃ path, s.fileOp = .unlinking path) ∨ (∃ old_path new_path,
      s.fileOp = .renaming old_path new_path) → s'.fileOp = .free → s'.names = s.names →
      Operates hash s a s'
  | unlinked (path : Path) : s.fileOp = .unlinking path → s'.fileOp = .unlinked path →
      s'.names = Function.update s.names path none → Operates hash s a s'
  | held (path : Path) (p : Ptr) : s.fileOp = .unlinked path → s'.fileOp = .unlinkHeld path p →
      s'.names = s.names → s.files.getOrCreate hash path = .ok (p, s'.files) → Operates hash s a s'
  | finished (path : Path) (p : Ptr) : s.fileOp = .unlinkHeld path p →
      (∃ created unlinked, a = .unlinkFinish created unlinked) → s'.fileOp = .free →
      s'.names = s.names → Operates hash s a s'
  | renameStart (old_path new_path : Path) : a = .renameStart old_path new_path →
      s.fileOp = .free → s.names old_path ≠ none → s'.fileOp = .renaming old_path new_path →
      s'.names = s.names → Operates hash s a s'
  | renamed (old_path new_path : Path) : (∃ ok, a = .renameReal ok) →
      s.fileOp = .renaming old_path new_path → s'.fileOp = .renamed old_path new_path →
      s'.names = Function.update (Function.update s.names old_path none) new_path
        (s.names old_path) → Operates hash s a s'
  | captured (old_path new_path : Path) (created renamed enoent : Bool) :
      a = .renameCapture created renamed enoent → s.fileOp = .renamed old_path new_path →
      s'.fileOp = .free → s'.names = s.names →
      (∀ D, s.session = some D → s.names new_path ≠ none → ∃ r, s'.files = r.1 ∧
        captureRename hash s.files D old_path new_path
          ⟨created, some new_path, renamed, enoent⟩ = .ok r) → Operates hash s a s'

theorem stepFileOp_operates {a : Action} (hstep : stepFileOp hash s a = some s') :
    Operates hash s a s' := by
  cases fileOpStep_of_stepFileOp hstep with
  | unlinkStart path hfree _ hs' =>
    subst hs'
    exact Operates.unlinkStart path hfree rfl rfl
  | unlinkReal path hop hs' =>
    subst hs'
    exact Operates.unlinked path hop rfl rfl
  | unlinkAbort path hop hs' =>
    subst hs'
    exact Operates.aborted (Or.inl ⟨path, hop⟩) rfl rfl
  | unlinkHold path hop hsection =>
    obtain ⟨e, rfl⟩ | ⟨⟨p, F⟩, hrun, rfl⟩ := State.attempt_cases hsection
    · exact Operates.failed ⟨rfl, rfl, rfl⟩ rfl
    · exact Operates.held path p hop rfl rfl hrun
  | unlinkFinish created unlinked path source hop _ hsection =>
    obtain ⟨e, rfl⟩ | ⟨r, -, rfl⟩ := State.attempt_cases hsection
    · exact Operates.failed ⟨rfl, rfl, rfl⟩ rfl
    · exact Operates.finished path source hop ⟨created, unlinked, rfl⟩ rfl rfl
  | renameStart old_path new_path hfree hname hs' =>
    subst hs'
    exact Operates.renameStart old_path new_path rfl hfree hname rfl rfl
  | renameReal old_path new_path hop hs' =>
    subst hs'
    exact Operates.renamed old_path new_path ⟨_, rfl⟩ hop rfl rfl
  | renameAbort old_path new_path hop hs' =>
    subst hs'
    exact Operates.aborted (Or.inr ⟨old_path, new_path, hop⟩) rfl rfl
  | renameCapture created renamed enoent old_path new_path D hop _ hsession hsection =>
    obtain ⟨e, rfl⟩ | ⟨r, hrun, rfl⟩ := State.attempt_cases hsection
    · exact Operates.failed ⟨rfl, rfl, rfl⟩ rfl
    · refine Operates.captured old_path new_path _ _ _ rfl hop rfl rfl fun D' hD' hname => ?_
      cases hsession.symm.trans hD'
      rw [if_neg hname] at hrun
      exact ⟨r, rfl, hrun⟩
  | renamePass created renamed enoent old_path new_path hop _ hsession hs' =>
    subst hs'
    refine Operates.captured old_path new_path _ _ _ rfl hop rfl rfl fun D' hD' => ?_
    rw [hsession] at hD'
    cases hD'

/-! ## Files of operations

A rename finds its file under the old name until the real `rename`, and under the new name
after it: nothing else changes a name while `m_atomic_file_op_mutex` is held. -/

structure OpNamed (s : State) : Prop where
  start : ∀ old_path new_path, s.fileOp = .renaming old_path new_path → s.names old_path ≠ none
  done : ∀ old_path new_path, s.fileOp = .renamed old_path new_path → s.names new_path ≠ none

theorem OpNamed.congr (h : OpNamed s) (hnames : s'.names = s.names)
    (hop : ∀ op, s'.fileOp = op → op = .free ∨ (∃ fd, op = .creating fd) ∨ op = s.fileOp) :
    OpNamed s' := by
  refine ⟨fun old_path new_path hs' => ?_, fun old_path new_path hs' => ?_⟩
  · rw [hnames]
    obtain hbad | ⟨fd, hbad⟩ | hs := hop _ hs'
    · cases hbad
    · cases hbad
    · exact h.start old_path new_path hs.symm
  · rw [hnames]
    obtain hbad | ⟨fd, hbad⟩ | hs := hop _ hs'
    · cases hbad
    · cases hbad
    · exact h.done old_path new_path hs.symm

theorem OpNamed.of_op (hrenaming : ∀ old_path new_path, s.fileOp ≠ .renaming old_path new_path)
    (hrenamed : ∀ old_path new_path, s.fileOp ≠ .renamed old_path new_path) : OpNamed s :=
  ⟨fun old_path new_path hs => absurd hs (hrenaming old_path new_path),
    fun old_path new_path hs => absurd hs (hrenamed old_path new_path)⟩

theorem opNamed_stepFileOp (h : OpNamed s) {a : Action} (hstep : stepFileOp hash s a = some s') :
    OpNamed s' := by
  cases stepFileOp_operates hstep with
  | failed hnames =>
    refine h.congr hnames.names fun op hop => Or.inr (Or.inr ?_)
    rw [← hop, hnames.fileOp]
  | unlinkStart path _ hop => exact OpNamed.of_op (by simp [hop]) (by simp [hop])
  | aborted _ hop => exact OpNamed.of_op (by simp [hop]) (by simp [hop])
  | unlinked path _ hop => exact OpNamed.of_op (by simp [hop]) (by simp [hop])
  | held path p _ hop => exact OpNamed.of_op (by simp [hop]) (by simp [hop])
  | finished path p _ _ hop => exact OpNamed.of_op (by simp [hop]) (by simp [hop])
  | renameStart old_path new_path _ _ hold hop hnames =>
    refine ⟨fun old new hop' => ?_, by simp [hop]⟩
    rw [hop] at hop'
    cases hop'
    rw [hnames]
    exact hold
  | renamed old_path new_path _ hold hop hnames =>
    refine ⟨by simp [hop], fun old new hop' => ?_⟩
    rw [hop] at hop'
    cases hop'
    rw [hnames, Function.update_self]
    exact h.start old_path new_path hold
  | captured old_path new_path _ _ _ _ _ hop => exact OpNamed.of_op (by simp [hop]) (by simp [hop])

theorem opNamed_step (h : OpNamed s) {a : Action} (hstep : step hash s a = some s') :
    OpNamed s' := by
  have hsame : SameNames s s' → OpNamed s' := by
    intro hnames
    refine h.congr hnames.names fun op hop => Or.inr (Or.inr ?_)
    rw [← hop, hnames.fileOp]
  have hunlock : ∀ fd, s'.names = s.names → s'.fileOp = s.fileOp.unlock fd → OpNamed s' := by
    intro fd hnames hop
    refine h.congr hnames fun op hs' => ?_
    rw [hop] at hs'
    exact (FileOp.unlock_cases hs').imp_right Or.inr
  obtain ⟨-, hopen | hclose | hop | hthread | hbackup⟩ := step_cases hstep
  · cases stepOpen_opens hopen with
    | failed hnames => exact hsame hnames
    | found fd path i _ _ _ hnames _ hop =>
      rcases hop with hop | ⟨-, hop⟩
      · refine h.congr hnames fun op hs' => Or.inr (Or.inr ?_)
        rw [← hs', hop]
      · refine h.congr hnames fun op hs' => Or.inr (Or.inl ⟨fd, ?_⟩)
        rw [← hs', hop]
    | new fd path _ _ _ _ _ _ hop => exact OpNamed.of_op (by simp [hop]) (by simp [hop])
    | untracked fd d _ _ _ hnames _ hop => exact hunlock fd hnames hop
    | attached fd d p _ _ _ _ _ _ hnames => exact hsame hnames
    | moved fd d stage _ _ _ hnames _ hop =>
      rcases hop with hop | hop
      · refine h.congr hnames fun op hs' => Or.inr (Or.inr ?_)
        rw [← hs', hop]
      · exact hunlock fd hnames hop
  · exact hsame (stepClose_frame hclose).1
  · exact opNamed_stepFileOp h hop
  · exact hsame (stepThread_frame hthread).1
  · exact hsame (stepBackup_frame hbackup).1

theorem step_from {a : Action} (hstep : step hash s a = some s') :
    SessionFrom s a s' ∧ ∀ c', s'.backup = .copying c' →
      s'.session = s.session ∧ CopierFrom hash s a s' c' := by
  have hsame : s'.session = s.session → s'.backup = s.backup → SessionFrom s a s' ∧
      ∀ c', s'.backup = .copying c' → s'.session = s.session ∧ CopierFrom hash s a s' c' := by
    intro hsession hbackup
    refine ⟨.same hsession, fun c' hc' => ⟨hsession, ?_⟩⟩
    rw [hbackup] at hc'
    exact .stays c' hc' rfl rfl rfl
  obtain ⟨-, hopen | hclose | hop | hthread | hback⟩ := step_cases hstep
  · obtain ⟨-, hsession, hbackup⟩ := stepOpen_frame hopen
    exact hsame hsession hbackup
  · obtain ⟨-, -, -, hsession, -, hbackup, -⟩ := stepClose_frame hclose
    exact hsame hsession hbackup
  · obtain ⟨-, -, -, hsession, hbackup, -⟩ := stepFileOp_frame hop
    exact hsame hsession hbackup
  · obtain ⟨-, -, -, hsession, -, hbackup, -⟩ := stepThread_frame hthread
    exact hsame hsession hbackup
  · exact stepBackup_from hback

end

end TokuBackup.Lifecycle
