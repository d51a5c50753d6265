import TokuBackup.Lifecycle.NewDestinations

/-!
# Sessions and destinations

A step makes destinations only for the session that is active, under its own directories.
The end of the session visits the fd map once and removes the destinations of the files it
finds there; it leaves one behind when a file's count is above one, or when the file is not
in the fd map.
-/

namespace TokuBackup.Lifecycle

open Kernel Table Lib

section

variable {hash : Path → Nat} {s s' s₀ : State} {D : DirectorySet} {p : Ptr} {F F' : Files}

/-! ## The session's destinations -/

/-- A new destination lies under the directories of `D`. -/
abbrev Makes (D : DirectorySet) : Files → Files → Prop := Grows fun _ d => D.Under d.path

/-- What the applications' steps may make, and nothing while the session ends. -/
def State.Capturing (s : State) (d : DestinationFile) : Prop :=
  s.backup.exclusive = false ∧ ∃ D, s.session = some D ∧ D.Under d.path

theorem callsGrow_capturing (s : State) (a : Action) :
    CallsGrow hash s a fun _ => s.Capturing where
  opened := fun _ _ _ hfree hsession hrun =>
    captureOpen_grows
      (fun _ _ _ hb _ => ⟨hfree, _, hsession, DirectorySet.under_translate _ hb⟩) hrun
  unlinked := fun _ _ hfree hrun => unlinkSection_grows (fun _ _ _ hcapture hb =>
    ⟨hfree, _, (State.shouldCaptureUnlink_some hcapture).1, DirectorySet.under_translate _ hb⟩) hrun
  renamed := fun _ _ hfree hsession _ hrun => captureRename_grows (fun _ _ _ _ _ hold hnew =>
    ⟨⟨hfree, _, hsession, DirectorySet.under_translate _ hold⟩,
      ⟨hfree, _, hsession, DirectorySet.under_translate _ hnew⟩⟩) hrun

/-! ## The fd map -/

theorem mapped_update {fd : Nat} {o : Option Fd} (hfds : s'.fds = Function.update s.fds fd o)
    (ho : o.bind (fun d => d.stage.mapped) = none ∨ o.bind (fun d => d.stage.mapped) = s.mapped fd)
    {fd' : Nat} (hp : s'.mapped fd' = some p) : s.mapped fd' = some p := by
  rw [State.mapped, hfds, Function.update_apply] at hp
  split at hp
  · rename_i hfd
    rcases ho with ho | ho
    · rw [ho] at hp
      cases hp
    · rw [hfd, ← ho]
      exact hp
  · exact hp

theorem mapped_of_fd {fd : Nat} {d : Fd} (hd : s.fds fd = some d) :
    s.mapped fd = d.stage.mapped := by
  rw [State.mapped, hd, Option.bind_some]

/-- A description gets into the fd map by `open`, and not while the map is locked. -/
theorem stepOpen_mapped {a : Action} (hstep : stepOpen hash s a = some s') :
    s.mapSize ≤ s'.mapSize ∧ ∀ fd p, s'.mapped fd = some p →
      s.mapped fd = some p ∨ s.backup.exclusive = false ∧ fd < s'.mapSize := by
  have hsame : ∀ (fd : Nat) (o : Option Fd) (t : State), t.fds = Function.update s.fds fd o →
      o.bind (fun d => d.stage.mapped) = none ∨ o.bind (fun d => d.stage.mapped) = s.mapped fd →
      t.mapSize = s.mapSize → s.mapSize ≤ t.mapSize ∧ ∀ fd p, t.mapped fd = some p →
        s.mapped fd = some p ∨ s.backup.exclusive = false ∧ fd < t.mapSize :=
    fun fd o t hfds ho hsize => ⟨hsize.ge, fun fd p hp => Or.inl (mapped_update hfds ho hp)⟩
  have hfault : ∀ e, let t : State := { s with fault := some e }
      s.mapSize ≤ t.mapSize ∧ ∀ fd p, t.mapped fd = some p →
        s.mapped fd = some p ∨ s.backup.exclusive = false ∧ fd < t.mapSize :=
    fun e => ⟨le_rfl, fun fd p hp => Or.inl hp⟩
  cases openStep_of_stepOpen hstep with
  | existing fd path i _ _ hs' =>
    subst hs'
    exact hsame fd _ _ rfl (Or.inl rfl) rfl
  | found fd path i _ _ _ hs' =>
    subst hs'
    exact hsame fd _ _ rfl (Or.inl rfl) rfl
  | new fd path _ _ _ hs' =>
    subst hs'
    exact hsame fd _ _ rfl (Or.inl rfl) rfl
  | untracked fd d _ _ _ hs' =>
    subst hs'
    exact hsame fd none _ rfl (Or.inl rfl) rfl
  | attach fd d _ _ _ hsection =>
    obtain ⟨e, rfl⟩ | ⟨⟨p, F⟩, -, rfl⟩ := State.attempt_cases hsection
    · exact hfault e
    · exact hsame fd _ _ rfl (Or.inl rfl) rfl
  | publish fd d source _ _ hfree hs' =>
    subst hs'
    refine ⟨le_max_left _ _, fun fd' p hp => ?_⟩
    by_cases hfd : fd' = fd
    · rw [hfd]
      exact Or.inr ⟨hfree, lt_of_lt_of_le (Nat.lt_succ_self fd) (le_max_right _ _)⟩
    · have hp : (Function.update s.fds fd (some { d with stage := .published source }) fd').bind
          (fun d => d.stage.mapped) = some p := hp
      rw [Function.update_of_ne hfd] at hp
      exact Or.inl hp
  | capture fd opened created d source captured hd hstage _ _ hsection =>
    obtain ⟨e, rfl⟩ | ⟨r, -, rfl⟩ := State.attempt_cases hsection
    · exact hfault e
    · refine hsame fd _ _ rfl (Or.inr ?_) rfl
      rw [mapped_of_fd hd, hstage]
      rfl

theorem stepClose_mapped {a : Action} (hstep : stepClose hash s a = some s') {fd' : Nat}
    (hp : s'.mapped fd' = some p) : s.mapped fd' = some p := by
  have hmove : ∀ (fd : Nat) (d : Fd) (stage : FdStage) (t : State),
      t.fds = Function.update s.fds fd (some { d with stage }) → s.fds fd = some d →
      stage.mapped = none ∨ stage.mapped = d.stage.mapped → t.mapped fd' = some p →
      s.mapped fd' = some p := by
    intro fd d stage t hfds hd hstage hp
    refine mapped_update hfds ?_ hp
    rw [mapped_of_fd hd]
    exact hstage
  cases closeStep_of_stepClose hstep with
  | begin fd d source hd hstage _ hs' =>
    subst hs'
    exact hmove fd d (.closing source) _ rfl hd (Or.inr (by rw [hstage]; rfl)) hp
  | unhook fd d source hd hstage _ _ hsection =>
    obtain ⟨e, rfl⟩ | ⟨F, -, rfl⟩ := State.attempt_cases hsection
    · exact hp
    · exact hmove fd d (.unhooked source) _ rfl hd (Or.inr (by rw [hstage]; rfl)) hp
  | pass fd d source hd hstage _ _ hs' =>
    subst hs'
    exact hmove fd d (.unhooked source) _ rfl hd (Or.inr (by rw [hstage]; rfl)) hp
  | erase fd d source hd _ _ hs' =>
    subst hs'
    exact hmove fd d (.erased source) _ rfl hd (Or.inl rfl) hp
  | release fd d source hd _ hsection =>
    obtain ⟨e, rfl⟩ | ⟨F, -, rfl⟩ := State.attempt_cases hsection
    · exact hp
    · exact hmove fd d .released _ rfl hd (Or.inl rfl) hp
  | real fd d _ _ hs' =>
    subst hs'
    exact mapped_update rfl (Or.inl rfl) hp

theorem mapped_step {a : Action} (hstep : step hash s a = some s') :
    s.mapSize ≤ s'.mapSize ∧ ∀ fd p, s'.mapped fd = some p →
      s.mapped fd = some p ∨ s.backup.exclusive = false ∧ fd < s'.mapSize := by
  have hsame : s'.fds = s.fds → s'.mapSize = s.mapSize → s.mapSize ≤ s'.mapSize ∧
      ∀ fd p, s'.mapped fd = some p →
        s.mapped fd = some p ∨ s.backup.exclusive = false ∧ fd < s'.mapSize := by
    intro hfds hsize
    refine ⟨hsize.ge, fun fd p hp => Or.inl ?_⟩
    rw [State.mapped, hfds] at hp
    exact hp
  obtain ⟨-, hopen | hclose | hop | hthread | hback⟩ := step_cases hstep
  · exact stepOpen_mapped hopen
  · obtain ⟨-, -, -, -, -, -, hsize⟩ := stepClose_frame hclose
    exact ⟨hsize.ge, fun fd p hp => Or.inl (stepClose_mapped hclose hp)⟩
  · obtain ⟨hfds, -, -, -, -, hsize⟩ := stepFileOp_frame hop
    exact hsame hfds hsize
  · obtain ⟨-, hfds, -, -, -, -, hsize⟩ := stepThread_frame hthread
    exact hsame hfds hsize
  · obtain ⟨-, hfds, -, hsize⟩ := stepBackup_frame hback
    exact hsame hfds hsize

/-! ## The invariant -/

/-- Every destination belongs to the session and lies under its directories; those that the
end of the session has still to remove are at fds that it has still to visit. -/
structure Within (s : State) : Prop where
  session : ∀ p d, s.files.dest p = some d → ∃ D, s.session = some D ∧ D.Under d.path
  disabling : ∀ i p fd, s.backup = .disabling i → s.files.dest p ≠ none →
    s.mapped fd = some p → i ≤ fd
  size : ∀ fd p, s.mapped fd = some p → fd < s.mapSize
  idle : s.backup = .idle → s.session = none
  copier : ∀ c, s.backup = .copying c → ∃ D, s.session = some D ∧ D.Under c.dst

/-- The end of the session finds each file with a destination in the fd map, and with no
more than one reference. -/
def EndsClean (s : State) : Action → Prop
  | .disableNext =>
    match s.backup with
    | .disabling i =>
      if i < s.mapSize then
        ∀ p f, s.mapped i = some p → s.files.heap p = some f → f.destinationFile ≠ none →
          f.referenceCount ≤ 1
      else ∀ p, s.files.dest p ≠ none → ∃ fd, s.mapped fd = some p
    | _ => True
  | _ => True

theorem within_initial (h : Initial s) : Within s := by
  have hmapped : ∀ fd, s.mapped fd = none := fun fd => by rw [State.mapped, h.fds]; rfl
  refine ⟨fun p d hd => ?_, fun i p fd hi => ?_, fun fd p hp => ?_, fun _ => h.session,
    fun c hc => ?_⟩
  · rw [h.files] at hd
    cases hd
  · rw [h.backup] at hi
    cases hi
  · rw [hmapped] at hp
    cases hp
  · rw [h.backup] at hc
    cases hc

/-- A step of the applications. -/
theorem Within.step (hw : Within s) (hmakes : Grows (fun _ => s.Capturing) s.files s'.files)
    (hsession : s'.session = s.session) (hbackup : s'.backup = s.backup)
    (hsize : s.mapSize ≤ s'.mapSize)
    (hmapped : ∀ fd p, s'.mapped fd = some p →
      s.mapped fd = some p ∨ s.backup.exclusive = false ∧ fd < s'.mapSize) : Within s' := by
  refine ⟨fun p d hd => ?_, fun i p fd hi hd hp => ?_, fun fd p hp => ?_, fun hi => ?_,
    fun c hc => ?_⟩
  · rw [hsession]
    rcases hmakes p d hd with hold | ⟨-, hnew⟩
    · exact hw.session p d hold
    · exact hnew
  · rw [hbackup] at hi
    have hexclusive : s.backup.exclusive = true := by rw [hi]; rfl
    obtain ⟨d, hd⟩ := Option.ne_none_iff_exists'.mp hd
    rcases hmakes p d hd with hold | ⟨hbad, -⟩
    · rcases hmapped fd p hp with hp | ⟨hbad, -⟩
      · exact hw.disabling i p fd hi (by rw [hold]; simp) hp
      · rw [hexclusive] at hbad
        cases hbad
    · rw [hexclusive] at hbad
      cases hbad
  · rcases hmapped fd p hp with hp | ⟨-, hlt⟩
    · exact lt_of_lt_of_le (hw.size fd p hp) hsize
    · exact hlt
  · rw [hsession]
    exact hw.idle (hbackup ▸ hi)
  · rw [hsession]
    exact hw.copier c (hbackup ▸ hc)

/-- A step of the backup thread that stays in the session. -/
theorem Within.backup (hw : Within s) (ok : DestinationFile → Prop)
    (hmakes : Grows (fun _ => ok) s.files s'.files)
    (hok : ∀ d, ok d → ∃ D, s.session = some D ∧ D.Under d.path)
    (hsession : s'.session = s.session) (hfds : s'.fds = s.fds) (hsize : s'.mapSize = s.mapSize)
    (hdisabling : ∀ i p fd, s'.backup = .disabling i → s'.files.dest p ≠ none →
      s.mapped fd = some p → i ≤ fd)
    (hidle : s'.backup = .idle → s.backup = .idle)
    (hcopier : ∀ c, s'.backup = .copying c → ∃ D, s.session = some D ∧ D.Under c.dst) :
    Within s' := by
  have hmapped : ∀ fd, s'.mapped fd = s.mapped fd := fun fd => by rw [State.mapped, hfds]; rfl
  refine ⟨fun p d hd => ?_, fun i p fd hi hd hp => ?_, fun fd p hp => ?_, fun hi => ?_,
    fun c hc => ?_⟩
  · rw [hsession]
    rcases hmakes p d hd with hold | hnew
    · exact hw.session p d hold
    · exact hok d hnew
  · rw [hmapped] at hp
    exact hdisabling i p fd hi hd hp
  · rw [hmapped] at hp
    rw [hsize]
    exact hw.size fd p hp
  · rw [hsession]
    exact hw.idle (hidle hi)
  · rw [hsession]
    exact hcopier c hc

/-- A step that reads memory that is no longer there. -/
theorem Within.crash (hw : Within s) (e : Fault) : Within { s with fault := some e } :=
  ⟨hw.session, hw.disabling, hw.size, hw.idle, hw.copier⟩

theorem within_copierStep (hw : Within s) {c : Copier} (hc : s.backup = .copying c) {a : Action}
    (hstep : CopierStep hash s c s' a) : Within s' := by
  obtain ⟨D, hsession, hdst⟩ := hw.copier c hc
  have hok : ∀ d : DestinationFile, D.Under d.path →
      ∃ D, s.session = some D ∧ D.Under d.path := fun d hd => ⟨D, hsession, hd⟩
  have hmove : ∀ (F : Files) (pc : CopierPc), Makes D s.files F →
      Within { s with files := F, backup := .copying { c with pc } } := by
    intro F pc hmakes
    refine hw.backup _ hmakes hok rfl rfl rfl (fun i p fd hi => by cases hi) (fun hi => by cases hi)
      fun c' hc' => ?_
    cases hc'
    exact ⟨D, hsession, hdst⟩
  cases hstep with
  | opened _ _ hs' =>
    subst hs'
    exact hmove s.files _ (Grows.refl _)
  | skipped ok _ _ hs' =>
    subst hs'
    exact hmove s.files _ (Grows.refl _)
  | create created _ hsection =>
    obtain ⟨e, rfl⟩ | ⟨r, hrun, rfl⟩ := State.attempt_cases hsection
    · exact hw.crash e
    · exact hmove r.1 r.2 (createDestination_grows (fun _ _ => hdst) hrun)
  | use dest _ _ hs' =>
    subst hs'
    exact hw
  | misuse dest _ _ hs' =>
    subst hs'
    exact hw.crash _
  | done ok dest _ hs' =>
    subst hs'
    exact hmove s.files _ (Grows.refl _)
  | unhook _ hsection =>
    obtain ⟨e, rfl⟩ | ⟨F, hrun, rfl⟩ := State.attempt_cases hsection
    · exact hw.crash e
    · exact hmove F .closed (grows_tryToRemoveDestination hrun).1
  | release _ hsection =>
    obtain ⟨e, rfl⟩ | ⟨F, hrun, rfl⟩ := State.attempt_cases hsection
    · exact hw.crash e
    · exact hw.backup _ (grows_tryToRemove hrun) hok rfl rfl rfl
        (fun i p fd hi => by cases hi) (fun hi => by cases hi) fun c' hc' => by cases hc'

/-- An iteration of the loop over the files at the end of the session. -/
theorem within_disable (hw : Within s) (hclean : EndsClean s .disableNext) {i : Nat} {source : Ptr}
    {F : Files} (hi : s.backup = .disabling i) (hlt : i < s.mapSize)
    (hmapped : s.mapped i = some source)
    (hrun : s.files.tryToRemoveDestination source = .ok F) :
    Within { s with files := F, backup := .disabling (i + 1) } := by
  simp only [EndsClean, hi] at hclean
  rw [if_pos hlt] at hclean
  obtain ⟨hgrows, f, hf, hkept⟩ := grows_tryToRemoveDestination hrun
  refine hw.backup (fun _ => False) hgrows (fun d => False.elim) rfl rfl rfl
    (fun j p fd hj hd hp => ?_) (fun hidle => by cases hidle) fun c hc => by cases hc
  cases hj
  obtain ⟨d, hd⟩ := Option.ne_none_iff_exists'.mp hd
  have hold := (hgrows p d hd).resolve_right id
  have hle := hw.disabling i p fd hi (by rw [hold]; simp) hp
  refine Nat.lt_of_le_of_ne hle fun hfd => ?_
  -- the file that was visited has lost its destination
  rw [← hfd, hmapped] at hp
  cases hp
  have hone := hclean source f hmapped hf (by rw [← dest_of_heap hf, hold]; simp)
  have hmore := hkept (by rw [show F.dest source = some d from hd]; simp)
  omega

theorem within_disableSkip (hw : Within s) {i : Nat} (hi : s.backup = .disabling i)
    (hmapped : s.mapped i = none) : Within { s with backup := .disabling (i + 1) } := by
  refine hw.backup (fun _ => False) (Grows.refl _) (fun d => False.elim) rfl rfl rfl
    (fun j p fd hj hd hp => ?_) (fun hidle => by cases hidle) fun c hc => by cases hc
  cases hj
  refine Nat.lt_of_le_of_ne (hw.disabling i p fd hi hd hp) fun hfd => ?_
  rw [← hfd, hmapped] at hp
  cases hp

/-- After the loop no file has a destination. -/
theorem within_disabled (hw : Within s) (hclean : EndsClean s .disableNext) {i : Nat}
    (hi : s.backup = .disabling i) (hge : ¬ i < s.mapSize) :
    Within { s with session := none, backup := .idle } := by
  simp only [EndsClean, hi] at hclean
  rw [if_neg hge] at hclean
  have hnone : ∀ p, s.files.dest p = none := by
    intro p
    by_contra hd
    obtain ⟨fd, hp⟩ := hclean p hd
    have hle := hw.disabling i p fd hi hd hp
    have hlt := hw.size fd p hp
    omega
  refine ⟨fun p d hd => ?_, fun j p fd hj => (by cases hj), hw.size, fun _ => rfl,
    fun c hc => by cases hc⟩
  rw [hnone p] at hd
  cases hd

theorem within_stepBackup (hw : Within s) {a : Action} (hclean : EndsClean s a)
    (hstep : stepBackup hash s a = some s') : Within s' := by
  -- steps after which no copier is at work and the session is not at its end
  have hmove : ∀ (t : State) (D : DirectorySet), s.session = some D → Makes D s.files t.files →
      t.session = s.session → t.fds = s.fds → t.mapSize = s.mapSize →
      (∀ i, t.backup ≠ .disabling i) → t.backup ≠ .idle → (∀ c, t.backup ≠ .copying c) →
      Within t := by
    intro t D hD hmakes hsession hfds hsize hdisabling hidle hcopier
    exact hw.backup _ hmakes (fun d hd => ⟨D, hD, hd⟩) hsession hfds hsize
      (fun i p fd hi => absurd hi (hdisabling i)) (fun hi => absurd hi hidle)
      fun c hc => absurd hc (hcopier c)
  have hnothing : ∀ t : State, t.files = s.files → t.session = s.session → t.fds = s.fds →
      t.mapSize = s.mapSize → (∀ i, t.backup ≠ .disabling i) → t.backup ≠ .idle →
      (∀ c, t.backup ≠ .copying c) → Within t := by
    intro t hfiles hsession hfds hsize hdisabling hidle hcopier
    exact hw.backup (fun _ => False) (Grows.of_heap (by rw [hfiles])) (fun d => False.elim)
      hsession hfds hsize (fun i p fd hi => absurd hi (hdisabling i)) (fun hi => absurd hi hidle)
      fun c hc => absurd hc (hcopier c)
  cases backupStep_of_stepBackup hstep with
  | start D hidle _ hs' =>
    subst hs'
    have hnone : ∀ p, s.files.dest p = none := by
      intro p
      by_contra hd
      obtain ⟨d, hd⟩ := Option.ne_none_iff_exists'.mp hd
      obtain ⟨D', hD', -⟩ := hw.session p d hd
      rw [hw.idle hidle] at hD'
      cases hD'
    refine ⟨fun p d hd => ?_, fun i p fd hi => (by cases hi), hw.size, fun hi => (by cases hi),
      fun c hc => by cases hc⟩
    rw [hnone p] at hd
    cases hd
  | prepare opened created i D source _ hsession _ _ hsection =>
    obtain ⟨e, rfl⟩ | ⟨⟨files, result⟩, hrun, rfl⟩ := State.attempt_cases hsection
    · exact hw.crash e
    · have hmakes : Makes D s.files files :=
        prepare_grows (fun _ _ _ _ hb _ => D.under_translate hb) hrun
      cases result with
      | next =>
        exact hmove _ D hsession hmakes rfl rfl rfl (by simp [State.afterPrepare])
          (by simp [State.afterPrepare]) (by simp [State.afterPrepare])
      | out =>
        exact hmove _ D hsession hmakes rfl rfl rfl (by simp [State.afterPrepare])
          (by simp [State.afterPrepare]) (by simp [State.afterPrepare])
      | failed =>
        exact hmove _ D hsession hmakes rfl rfl rfl (by simp [State.afterPrepare])
          (by simp [State.afterPrepare]) (by simp [State.afterPrepare])
  | prepareSkip opened created i D _ _ _ _ hs' =>
    subst hs'
    exact hnothing _ rfl rfl rfl rfl (by simp) (by simp) (by simp)
  | prepared opened created i D _ _ _ hs' =>
    subst hs'
    exact hnothing _ rfl rfl rfl rfl (by simp) (by simp) (by simp)
  | copierStart i file D source destination _ hsession hdir hsection =>
    obtain ⟨e, rfl⟩ | ⟨⟨p, F⟩, hrun, rfl⟩ := State.attempt_cases hsection
    · exact hw.crash e
    · refine hw.backup (fun _ => False) (grows_getOrCreate hrun) (fun d => False.elim)
        rfl rfl rfl (fun i p fd hi => by cases hi) (fun hi => by cases hi) fun c hc => ?_
      cases hc
      exact ⟨D, hsession, D.under_pathcat (List.mem_of_getElem? hdir) file⟩
  | stopCopy _ hs' =>
    subst hs'
    exact hnothing _ rfl rfl rfl rfl (by simp) (by simp) (by simp)
  | endSession _ _ hs' =>
    subst hs'
    refine hw.backup (fun _ => False) (Grows.refl _) (fun d => False.elim) rfl rfl rfl
      (fun i p fd hi _ _ => ?_) (fun hi => by cases hi) fun c hc => by cases hc
    cases hi
    exact Nat.zero_le _
  | disable i source hi hlt hmapped hsection =>
    obtain ⟨e, rfl⟩ | ⟨F, hrun, rfl⟩ := State.attempt_cases hsection
    · exact hw.crash e
    · exact within_disable hw hclean hi hlt hmapped hrun
  | disableSkip i hi _ hmapped hs' =>
    subst hs'
    exact within_disableSkip hw hi hmapped
  | disabled i hi hge hs' =>
    subst hs'
    exact within_disabled hw hclean hi hge
  | error hs' =>
    subst hs'
    exact ⟨hw.session, hw.disabling, hw.size, hw.idle, hw.copier⟩
  | copier c a hc hcopier => exact within_copierStep hw hc hcopier

theorem within_step (hw : Within s) {a : Action} (hclean : EndsClean s a)
    (hstep : Lifecycle.step hash s a = some s') : Within s' := by
  obtain ⟨hsize, hmapped⟩ := mapped_step hstep
  obtain ⟨-, hopen | hclose | hop | hthread | hback⟩ := step_cases hstep
  · obtain ⟨-, hsession, hbackup⟩ := stepOpen_frame hopen
    exact hw.step (stepOpen_grows (callsGrow_capturing s a) hopen) hsession hbackup hsize hmapped
  · obtain ⟨-, -, -, hsession, -, hbackup, -⟩ := stepClose_frame hclose
    exact hw.step (stepClose_grows hclose) hsession hbackup hsize hmapped
  · obtain ⟨-, -, -, hsession, hbackup, -⟩ := stepFileOp_frame hop
    exact hw.step (stepFileOp_grows (callsGrow_capturing s a) hop) hsession hbackup hsize hmapped
  · obtain ⟨-, -, hfiles, hsession, -, hbackup, -⟩ := stepThread_frame hthread
    exact hw.step (Grows.of_heap (by rw [hfiles])) hsession hbackup hsize hmapped
  · exact within_stepBackup hw hclean hback

/-! ## The main result -/

/-- In every run in which sessions end clean, whatever else fails, there is no destination
when no backup is running; and a destination always lies under the directories of the
session that is active. -/
theorem destinations_within_session (hash : Path → Nat) (hinit : Initial s₀) {as : List Action}
    (hok : RunOk (step hash) EndsClean s₀ as) (hrun : run (step hash) s₀ as = some s) :
    (s.session = none → ∀ p f, s.files.heap p = some f → f.destinationFile = none) ∧
      ∀ p f d, s.files.heap p = some f → f.destinationFile = some d →
        ∃ D, s.session = some D ∧ D.Under d.path := by
  have hw : Within s :=
    run_invariant (fun s a s' hs hclean hstep => within_step hs hclean hstep)
      (within_initial hinit) hok hrun
  have hunder : ∀ p f d, s.files.heap p = some f → f.destinationFile = some d →
      ∃ D, s.session = some D ∧ D.Under d.path := by
    intro p f d hf hd
    exact hw.session p d (by rw [dest_of_heap hf, hd])
  refine ⟨fun hnone p f hf => ?_, hunder⟩
  by_contra hd
  obtain ⟨d, hd⟩ := Option.ne_none_iff_exists'.mp hd
  obtain ⟨D, hD, -⟩ := hunder p f d hf hd
  rw [hnone] at hD
  cases hD

end

theorem endsClean_fileDuringBackup :
    RunOk (step List.length) EndsClean (start false) fileDuringBackup := by
  have happend : fileDuringBackup = fileDuringBackup.take 22 ++ [.disableNext, .disableNext] := rfl
  rw [happend, runOk_append]
  refine ⟨?_, fun t ht => ?_⟩
  · exact runOk_of_mem (by simp [fileDuringBackup, EndsClean])
  · have hrun : ∃ t, run (step List.length) (start false) (fileDuringBackup.take 22) = some t ∧
        t.backup = .disabling 0 ∧ t.mapSize = 1 ∧ t.mapped 0 = some 0 ∧
        (t.files.heap 0).map SourceFile.referenceCount = some 1 ∧
        ∃ t', step List.length t .disableNext = some t' ∧ t'.backup = .disabling 1 ∧
          t'.mapSize = 1 ∧ ∀ p, t'.files.dest p = none :=
      ⟨_, rfl, rfl, rfl, rfl, rfl, _, rfl, rfl, rfl, fun p => match p with
        | 0 => rfl
        | _ + 1 => rfl⟩
    obtain ⟨t₁, hrun, hi, hsize, hmapped, hcount, t', hstep, hi', hsize', hnone⟩ := hrun
    cases ht.symm.trans hrun
    refine ⟨?_, fun t'' ht'' => ⟨?_, fun _ _ => trivial⟩⟩
    · simp only [EndsClean, hi, hsize, if_pos Nat.one_pos]
      intro p f hp hf _
      rw [hmapped] at hp
      cases hp
      rw [hf] at hcount
      exact (Option.some.inj hcount).le
    · cases ht''.symm.trans hstep
      simp only [EndsClean, hi', hsize', if_neg (lt_irrefl 1)]
      intro p hd
      exact absurd (hnone p) hd

theorem destinations_within_session_fileDuringBackup :
    ∃ s, run (step List.length) (start false) fileDuringBackup = some s ∧ s.session = none ∧
      ∃ f, s.files.heap 0 = some f ∧ f.destinationFile = none := by
  have hrun : ∃ s, run (step List.length) (start false) fileDuringBackup = some s ∧
      s.session = none ∧ ∃ f, s.files.heap 0 = some f := ⟨_, rfl, rfl, _, rfl⟩
  obtain ⟨s, hrun, hsession, f, hf⟩ := hrun
  obtain ⟨hnone, -⟩ := destinations_within_session List.length (initial_start false)
    endsClean_fileDuringBackup hrun
  exact ⟨s, hrun, hsession, f, hf, hnone hsession 0 f hf⟩

/-- A backup of `/s` while two fds are open on one file. -/
def twoFdsOnOneFile : List Action :=
  [.openReal 0 ['/', 's', '/', 'a'] false, .openAttach 0, .openPublish 0, .openCapture 0 true true,
    .openReal 1 ['/', 's', '/', 'a'] false, .openAttach 1, .openPublish 1, .openCapture 1 true true,
    .startSession slashS, .prepareNext true true, .prepareNext true true, .prepareNext true true,
    .stopCopy, .endSession, .disableNext, .disableNext, .disableNext]

/-- The destination outlives the session. -/
theorem not_destinations_within_session_twoFdsOnOneFile :
    ¬ ∀ hash s₀ as s, Initial s₀ → run (step hash) s₀ as = some s → s.session = none →
      ∀ p f, s.files.heap p = some f → f.destinationFile = none := by
  intro h
  have hrun : ∃ s, run (step List.length) (start true) twoFdsOnOneFile = some s ∧
      s.session = none ∧ ∃ f, s.files.heap 0 = some f ∧ f.destinationFile.isSome :=
    ⟨_, rfl, rfl, _, rfl, rfl⟩
  obtain ⟨s, hrun, hsession, f, hf, hdest⟩ := hrun
  rw [h _ _ _ s (initial_start true) hrun hsession 0 f hf] at hdest
  cases hdest

end TokuBackup.Lifecycle
