import TokuBackup.Lifecycle.Counts

/-!
# New destinations

Which destinations a step can make, whatever state the table is in. Only five sections make
one: those of `open`, `unlink` and `rename`, an iteration of the preparation, and the one in
which the copier creates its destination.
-/

namespace TokuBackup.Lifecycle

open Kernel Table Lib

/-! ## New destinations -/

/-- Every destination that a source file has in `F'` it has in `F`, or the two meet `ok`. -/
def Grows (ok : Ptr → DestinationFile → Prop) (F F' : Files) : Prop :=
  ∀ p d, F'.dest p = some d → F.dest p = some d ∨ ok p d

section

variable {hash : Path → Nat} {ok ok' : Ptr → DestinationFile → Prop} {F F' F₁ : Files} {p : Ptr}

theorem Grows.refl (F : Files) : Grows ok F F := fun _ _ hd => Or.inl hd

theorem Grows.trans (h : Grows ok F F₁) (h' : Grows ok F₁ F') : Grows ok F F' := by
  intro p d hd
  rcases h' p d hd with hd | hd
  · exact h p d hd
  · exact Or.inr hd

theorem Grows.mono (h : Grows ok F F') (himp : ∀ p d, ok p d → ok' p d) : Grows ok' F F' :=
  fun p d hd => (h p d hd).imp_right (himp p d)

theorem Grows.of_heap (h : F'.heap = F.heap) : Grows ok F F' := by
  intro p d hd
  rw [Files.dest, h] at hd
  exact Or.inl hd

theorem Grows.update {o : Option SourceFile} (h : F'.heap = Function.update F.heap p o)
    (ho : ∀ d, o.bind SourceFile.destinationFile = some d → F.dest p = some d ∨ ok p d) :
    Grows ok F F' := by
  intro q d hd
  rw [Files.dest, h, Function.update_apply] at hd
  split at hd
  · rename_i hq
    rw [hq]
    exact ho d hd
  · exact Or.inl hd

theorem dest_of_heap {f : SourceFile} (hf : F.heap p = some f) :
    F.dest p = f.destinationFile := by
  rw [Files.dest, hf, Option.bind_some]

theorem grows_getOrCreate {n : Path} (h : F.getOrCreate hash n = .ok (p, F')) : Grows ok F F' := by
  obtain ⟨-, ⟨f, hf, -, rfl⟩ | ⟨-, -, hheap⟩⟩ := Files.getOrCreate_heap h
  · refine Grows.update rfl fun d hd => Or.inl ?_
    rw [dest_of_heap hf]
    exact hd
  · refine Grows.update hheap fun d hd => ?_
    cases hd

theorem grows_tryToRemove (h : F.tryToRemove hash p = .ok F') : Grows ok F F' := by
  obtain ⟨-, -, f, hf, -, ⟨-, rfl⟩ | ⟨-, hheap⟩⟩ := Files.tryToRemove_heap h
  · refine Grows.update rfl fun d hd => Or.inl ?_
    rw [dest_of_heap hf]
    exact hd
  · refine Grows.update hheap fun d hd => ?_
    cases hd

theorem tryToRemoveDestination_dest {f : SourceFile} {d : DestinationFile}
    (hd : f.tryToRemoveDestination.destinationFile = some d) :
    f.destinationFile = some d ∧ 1 < f.referenceCount := by
  rw [SourceFile.tryToRemoveDestination] at hd
  split at hd
  · rename_i hnone
    rw [hnone] at hd
    cases hd
  · split at hd
    · rename_i hmore
      exact ⟨hd, hmore⟩
    · cases hd

/-- `try_to_remove_destination` keeps the destination only when the count is above one. -/
theorem grows_tryToRemoveDestination (h : F.tryToRemoveDestination p = .ok F') :
    Grows ok F F' ∧ ∃ f, F.heap p = some f ∧ (F'.dest p ≠ none → 1 < f.referenceCount) := by
  obtain ⟨f, hf, rfl⟩ := Files.tryToRemoveDestination_heap h
  refine ⟨Grows.update rfl fun d hd => Or.inl ?_, f, hf, fun hd => ?_⟩
  · rw [dest_of_heap hf]
    exact (tryToRemoveDestination_dest hd).1
  · obtain ⟨d, hd⟩ := Option.ne_none_iff_exists'.mp hd
    rw [dest_of_heap (Function.update_self _ _ _)] at hd
    exact (tryToRemoveDestination_dest hd).2

theorem grows_tryToCreateDestinationFile {path : Path} {created b : Bool}
    (hpath : ∀ id, ok p ⟨id, path⟩)
    (h : F.tryToCreateDestinationFile p path created = .ok (b, F')) : Grows ok F F' := by
  obtain ⟨f, hf, -, -, ⟨rfl, -⟩ | ⟨-, -, -, -, hheap⟩⟩ := Files.tryToCreateDestinationFile_heap h
  · exact Grows.refl _
  · refine Grows.update hheap fun d hd => Or.inr ?_
    cases hd
    exact hpath _

theorem grows_rename {dest : Path} {o : RenameOutcome} {b : Bool} (hpath : ∀ id, ok p ⟨id, dest⟩)
    (h : F.rename hash p dest o = .ok (b, F')) : Grows ok F F' := by
  obtain ⟨-, -, -, f, hf, -, hheap⟩ := Files.rename_heap h
  refine Grows.update hheap fun d hd => ?_
  rw [Option.bind_some, SourceFile.renamed] at hd
  dsimp only at hd
  split at hd
  · obtain ⟨d', -, rfl⟩ := Option.map_eq_some_iff.mp hd
    exact Or.inr (hpath _)
  · rw [dest_of_heap hf]
    exact Or.inl hd

theorem grows_renameLocked {old_path old_dest dest : Path} {o : RenameOutcome} {b : Bool}
    (hold : ∀ q id, ok q ⟨id, old_dest⟩) (hnew : ∀ q id, ok q ⟨id, dest⟩)
    (h : F.renameLocked hash old_path old_dest dest o = .ok (b, F')) : Grows ok F F' := by
  obtain ⟨⟨target, F₁⟩, hget, h⟩ := bind_eq_ok.mp h
  obtain ⟨⟨created, F₂⟩, hcreate, h⟩ := bind_eq_ok.mp h
  have h₂ : Grows ok F F₂ :=
    (grows_getOrCreate hget).trans (grows_tryToCreateDestinationFile (hold target) hcreate)
  dsimp only at h
  split at h
  · obtain ⟨⟨renamed, F₃⟩, hrename, h⟩ := bind_eq_ok.mp h
    obtain ⟨F₄, hremove, h⟩ := bind_eq_ok.mp h
    cases h
    exact h₂.trans ((grows_rename (hnew target) hrename).trans (grows_tryToRemove hremove))
  · cases h
    exact h₂

end

/-! ## The sections -/

section

variable {hash : Path → Nat} {s s' s₀ : State} {D : DirectorySet} {p : Ptr} {F F' : Files}

variable {ok : Ptr → DestinationFile → Prop}

theorem captureOpen_grows {path : Path} {opened created : Bool} {r : Files × Bool}
    (hok : ∀ id b, s.names path ≠ none → D.translatePrefixOfRealpath path = some b →
      D.fileIsExcluded b = false → ok p ⟨id, b⟩)
    (h : captureOpen s D path p opened created = .ok r) : Grows ok s.files r.1 := by
  rw [captureOpen] at h
  split at h
  · cases h
    exact Grows.refl _
  rename_i hname
  split at h
  · cases h
    exact Grows.refl _
  obtain ⟨name, htranslate, h⟩ := bind_eq_ok.mp h
  split at h
  · cases h
    exact Grows.refl _
  rename_i hexcluded
  split at h
  · cases h
    exact Grows.refl _
  obtain ⟨⟨b, F'⟩, hcreate, h⟩ := bind_eq_ok.mp h
  cases h
  refine grows_tryToCreateDestinationFile (fun id => ?_) hcreate
  exact hok id name hname (demand_eq_ok.mp htranslate) (by simpa using hexcluded)

theorem prepare_grows {opened created : Bool} {r : Files × PrepareResult}
    (hok : ∀ id name b, s.files.name p = some name → D.translatePrefixOfRealpath name = some b →
      D.fileIsExcluded b = false → ok p ⟨id, b⟩)
    (h : prepare s D p opened created = .ok r) : Grows ok s.files r.1 := by
  obtain ⟨name, hname, h⟩ := bind_eq_ok.mp h
  dsimp only at h
  split at h
  · cases h
    exact Grows.refl _
  obtain ⟨file_name, htranslate, h⟩ := bind_eq_ok.mp h
  split at h
  · cases h
    exact Grows.refl _
  rename_i hexcluded
  split at h
  · cases h
    exact Grows.refl _
  obtain ⟨⟨b, F'⟩, hcreate, h⟩ := bind_eq_ok.mp h
  cases h
  refine grows_tryToCreateDestinationFile (fun id => ?_) hcreate
  exact hok id name file_name (demand_eq_ok.mp hname) (demand_eq_ok.mp htranslate)
    (by simpa using hexcluded)

theorem finishUnlink_grows (h : finishUnlink hash F p = .ok F') : Grows ok F F' := by
  obtain ⟨f, hf, h⟩ := bind_eq_ok.mp h
  have hf := demand_eq_ok.mp hf
  obtain ⟨F₁, hdest, hremove⟩ := bind_eq_ok.mp h
  refine Grows.trans ?_ ((grows_tryToRemoveDestination hdest).1.trans (grows_tryToRemove hremove))
  rw [Files.modify_of_heap hf]
  refine Grows.update rfl fun d hd => Or.inl ?_
  rw [dest_of_heap hf]
  exact hd

theorem captureUnlink_grows {path : Path} {created : Bool} {r : Bool × Files}
    (hok : ∀ id b, D.translatePrefixOfRealpath path = some b → ok p ⟨id, b⟩)
    (h : captureUnlink F D path p created = .ok r) : Grows ok F r.2 := by
  obtain ⟨f, -, h⟩ := bind_eq_ok.mp h
  dsimp only at h
  split at h
  · cases h
    exact Grows.refl _
  obtain ⟨dest_path, hpath, h⟩ := bind_eq_ok.mp h
  obtain ⟨⟨b, F₁⟩, hcreate, h⟩ := bind_eq_ok.mp h
  have hgrows : Grows ok F F₁ :=
    grows_tryToCreateDestinationFile (fun id => hok id _ (demand_eq_ok.mp hpath)) hcreate
  dsimp only at h
  split at h
  · cases h
    exact hgrows
  obtain ⟨g, -, h⟩ := bind_eq_ok.mp h
  obtain ⟨d, -, h⟩ := bind_eq_ok.mp h
  cases h
  exact hgrows

theorem State.shouldCaptureUnlink_some {path : Path} (h : s.shouldCaptureUnlink path = some D) :
    s.session = some D ∧ s.captureEnabled = true ∧ D.isPrefixOfRealpath path = true ∧
      D.fileIsExcluded path = false := by
  rw [State.shouldCaptureUnlink] at h
  split at h
  · rename_i D' hD'
    split at h
    · rename_i hcapture
      cases h
      exact ⟨hD', hcapture.1, hcapture.2.1, by simpa using hcapture.2.2⟩
    · cases h
  · cases h

/-- `unlink` makes a destination only when it captures. -/
theorem unlinkSection_grows {path : Path} {created unlinked : Bool} {r : Files × Bool}
    (hok : ∀ id D b, s.shouldCaptureUnlink path = some D →
      D.translatePrefixOfRealpath path = some b → ok p ⟨id, b⟩)
    (h : unlinkSection hash s path p created unlinked = .ok r) : Grows ok s.files r.1 := by
  rw [unlinkSection] at h
  split at h
  · rename_i D hcapture
    obtain ⟨⟨b, F₁⟩, hcreate, h⟩ := bind_eq_ok.mp h
    have hgrows : Grows ok s.files F₁ :=
      captureUnlink_grows (fun id b => hok id D b hcapture) hcreate
    dsimp only at h
    split at h
    · obtain ⟨F₂, hfinish, h⟩ := bind_eq_ok.mp h
      cases h
      exact hgrows.trans (finishUnlink_grows hfinish)
    · cases h
      exact hgrows
  · obtain ⟨F₂, hfinish, h⟩ := bind_eq_ok.mp h
    cases h
    exact finishUnlink_grows hfinish

theorem captureRename_grows {old_path new_path : Path} {o : RenameOutcome} {r : Files × Bool}
    (hok : ∀ q id old_dest new_dest, o.realpath ≠ none →
      D.translatePrefixOfRealpath old_path = some old_dest →
      D.translatePrefixOfRealpath new_path = some new_dest →
      ok q ⟨id, old_dest⟩ ∧ ok q ⟨id, new_dest⟩)
    (h : captureRename hash F D old_path new_path o = .ok r) : Grows ok F r.1 := by
  rw [captureRename] at h
  split at h
  · cases h
    exact Grows.refl _
  rename_i hrealpath
  split at h
  · obtain ⟨old_dest, hold, h⟩ := bind_eq_ok.mp h
    obtain ⟨new_dest, hnew, h⟩ := bind_eq_ok.mp h
    have hboth := fun q id =>
      hok q id old_dest new_dest hrealpath (demand_eq_ok.mp hold) (demand_eq_ok.mp hnew)
    obtain ⟨⟨b, F'⟩, hrename, h⟩ := bind_eq_ok.mp h
    cases h
    exact grows_renameLocked (fun q id => (hboth q id).1) (fun q id => (hboth q id).2) hrename
  · cases h
    exact Grows.refl _

theorem createDestination_grows {c : Copier} {created : Bool} {r : Files × CopierPc}
    (hok : ∀ id, s.names c.src ≠ none → ok c.file ⟨id, c.dst⟩)
    (h : createDestination s c created = .ok r) : Grows ok s.files r.1 := by
  rw [createDestination] at h
  split at h
  · cases h
    exact Grows.refl _
  rename_i hname
  obtain ⟨⟨b, F'⟩, hcreate, h⟩ := bind_eq_ok.mp h
  have hgrows : Grows ok s.files F' :=
    grows_tryToCreateDestinationFile (fun id => hok id hname) hcreate
  dsimp only at h
  split at h
  · cases h
    exact hgrows
  obtain ⟨f, -, h⟩ := bind_eq_ok.mp h
  cases h
  exact hgrows

/-! ## The steps -/

/-- What the section of a call of the applications may make meets `ok`. -/
structure CallsGrow (hash : Path → Nat) (s : State) (a : Action)
    (ok : Ptr → DestinationFile → Prop) : Prop where
  opened : ∀ {fd opened created d source D r}, a = .openCapture fd opened created →
    s.fds fd = some d → d.stage = .published source → s.backup.exclusive = false →
    s.session = some D → captureOpen s D d.path source opened created = .ok r → Grows ok s.files r.1
  unlinked : ∀ {created unlinked path source r}, a = .unlinkFinish created unlinked →
    s.fileOp = .unlinkHeld path source → s.backup.exclusive = false →
    unlinkSection hash s path source created unlinked = .ok r → Grows ok s.files r.1
  renamed : ∀ {created renamed enoent old_path new_path D o r},
    a = .renameCapture created renamed enoent → s.fileOp = .renamed old_path new_path →
    s.backup.exclusive = false → s.session = some D →
    o.realpath = (if s.names new_path = none then none else some new_path) →
    captureRename hash s.files D old_path new_path o = .ok r → Grows ok s.files r.1

/-- What the section of the step `a` may make meets `ok`. -/
structure SectionsGrow (hash : Path → Nat) (s : State) (a : Action)
    (ok : Ptr → DestinationFile → Prop) : Prop extends CallsGrow hash s a ok where
  prepared : ∀ {opened created i source D r}, a = .prepareNext opened created →
    s.backup = .preparing i → i < s.mapSize → s.mapped i = some source → s.session = some D →
    prepare s D source opened created = .ok r → Grows ok s.files r.1
  copied : ∀ {created c r}, a = .copierCreate created → s.backup = .copying c →
    createDestination s c created = .ok r → Grows ok s.files r.1

theorem stepOpen_grows {a : Action} (hsections : CallsGrow hash s a ok)
    (hstep : stepOpen hash s a = some s') : Grows ok s.files s'.files := by
  cases openStep_of_stepOpen hstep with
  | existing fd path i _ _ hs' =>
    subst hs'
    exact Grows.refl _
  | found fd path i _ _ _ hs' =>
    subst hs'
    exact Grows.refl _
  | new fd path _ _ _ hs' =>
    subst hs'
    exact Grows.refl _
  | untracked fd d _ _ _ hs' =>
    subst hs'
    exact Grows.refl _
  | attach fd d _ _ _ hsection =>
    obtain ⟨e, rfl⟩ | ⟨⟨p, F⟩, hrun, rfl⟩ := State.attempt_cases hsection
    · exact Grows.refl _
    · exact grows_getOrCreate hrun
  | publish fd d source _ _ _ hs' =>
    subst hs'
    exact Grows.refl _
  | capture fd opened created d source captured hd hstage hfree hcaptured hsection =>
    obtain ⟨e, rfl⟩ | ⟨r, hrun, rfl⟩ := State.attempt_cases hsection
    · exact Grows.refl _
    · obtain ⟨D, hsession, rfl⟩ | ⟨-, rfl⟩ := hcaptured
      · exact hsections.opened rfl hd hstage hfree hsession hrun
      · cases hrun
        exact Grows.refl _

theorem stepClose_grows {a : Action} (hstep : stepClose hash s a = some s') :
    Grows ok s.files s'.files := by
  cases closeStep_of_stepClose hstep with
  | begin fd d source _ _ _ hs' =>
    subst hs'
    exact Grows.refl _
  | unhook fd d source _ _ _ _ hsection =>
    obtain ⟨e, rfl⟩ | ⟨F, hrun, rfl⟩ := State.attempt_cases hsection
    · exact Grows.refl _
    · exact (grows_tryToRemoveDestination hrun).1
  | pass fd d source _ _ _ _ hs' =>
    subst hs'
    exact Grows.refl _
  | erase fd d source _ _ _ hs' =>
    subst hs'
    exact Grows.refl _
  | release fd d source _ _ hsection =>
    obtain ⟨e, rfl⟩ | ⟨F, hrun, rfl⟩ := State.attempt_cases hsection
    · exact Grows.refl _
    · exact grows_tryToRemove hrun
  | real fd d _ _ hs' =>
    subst hs'
    exact Grows.refl _

theorem stepFileOp_grows {a : Action} (hsections : CallsGrow hash s a ok)
    (hstep : stepFileOp hash s a = some s') : Grows ok s.files s'.files := by
  cases fileOpStep_of_stepFileOp hstep with
  | unlinkStart path _ _ hs' =>
    subst hs'
    exact Grows.refl _
  | unlinkReal path _ hs' =>
    subst hs'
    exact Grows.refl _
  | unlinkAbort path _ hs' =>
    subst hs'
    exact Grows.refl _
  | unlinkHold path _ hsection =>
    obtain ⟨e, rfl⟩ | ⟨⟨p, F⟩, hrun, rfl⟩ := State.attempt_cases hsection
    · exact Grows.refl _
    · exact grows_getOrCreate hrun
  | unlinkFinish created unlinked path source hop hfree hsection =>
    obtain ⟨e, rfl⟩ | ⟨r, hrun, rfl⟩ := State.attempt_cases hsection
    · exact Grows.refl _
    · exact hsections.unlinked rfl hop hfree hrun
  | renameStart old_path new_path _ _ hs' =>
    subst hs'
    exact Grows.refl _
  | renameReal old_path new_path _ hs' =>
    subst hs'
    exact Grows.refl _
  | renameAbort old_path new_path _ hs' =>
    subst hs'
    exact Grows.refl _
  | renameCapture created renamed enoent old_path new_path D hop hfree hsession hsection =>
    obtain ⟨e, rfl⟩ | ⟨r, hrun, rfl⟩ := State.attempt_cases hsection
    · exact Grows.refl _
    · exact hsections.renamed rfl hop hfree hsession rfl hrun
  | renamePass created renamed enoent old_path new_path _ _ _ hs' =>
    subst hs'
    exact Grows.refl _

theorem copierStep_grows {c : Copier} (hc : s.backup = .copying c) {a : Action}
    (hsections : SectionsGrow hash s a ok) (hstep : CopierStep hash s c s' a) :
    Grows ok s.files s'.files := by
  cases hstep with
  | opened _ _ hs' =>
    subst hs'
    exact Grows.refl _
  | skipped ok _ _ hs' =>
    subst hs'
    exact Grows.refl _
  | create created _ hsection =>
    obtain ⟨e, rfl⟩ | ⟨r, hrun, rfl⟩ := State.attempt_cases hsection
    · exact Grows.refl _
    · exact hsections.copied rfl hc hrun
  | use dest _ _ hs' =>
    subst hs'
    exact Grows.refl _
  | misuse dest _ _ hs' =>
    subst hs'
    exact Grows.refl _
  | done ok dest _ hs' =>
    subst hs'
    exact Grows.refl _
  | unhook _ hsection =>
    obtain ⟨e, rfl⟩ | ⟨F, hrun, rfl⟩ := State.attempt_cases hsection
    · exact Grows.refl _
    · exact (grows_tryToRemoveDestination hrun).1
  | release _ hsection =>
    obtain ⟨e, rfl⟩ | ⟨F, hrun, rfl⟩ := State.attempt_cases hsection
    · exact Grows.refl _
    · exact grows_tryToRemove hrun

theorem stepBackup_grows {a : Action} (hsections : SectionsGrow hash s a ok)
    (hstep : stepBackup hash s a = some s') : Grows ok s.files s'.files := by
  cases backupStep_of_stepBackup hstep with
  | start D _ _ hs' =>
    subst hs'
    exact Grows.refl _
  | prepare opened created i D source hi hsession hlt hmapped hsection =>
    obtain ⟨e, rfl⟩ | ⟨⟨files, result⟩, hrun, rfl⟩ := State.attempt_cases hsection
    · exact Grows.refl _
    · have hgrows : Grows ok s.files files :=
        hsections.prepared rfl hi hlt hmapped hsession hrun
      cases result with
      | next => exact hgrows
      | out => exact hgrows
      | failed => exact hgrows
  | prepareSkip opened created i D _ _ _ _ hs' =>
    subst hs'
    exact Grows.refl _
  | prepared opened created i D _ _ _ hs' =>
    subst hs'
    exact Grows.refl _
  | copierStart i file D source destination _ _ _ hsection =>
    obtain ⟨e, rfl⟩ | ⟨⟨p, F⟩, hrun, rfl⟩ := State.attempt_cases hsection
    · exact Grows.refl _
    · exact grows_getOrCreate hrun
  | stopCopy _ hs' =>
    subst hs'
    exact Grows.refl _
  | endSession _ _ hs' =>
    subst hs'
    exact Grows.refl _
  | disable i source _ _ _ hsection =>
    obtain ⟨e, rfl⟩ | ⟨F, hrun, rfl⟩ := State.attempt_cases hsection
    · exact Grows.refl _
    · exact (grows_tryToRemoveDestination hrun).1
  | disableSkip i _ _ _ hs' =>
    subst hs'
    exact Grows.refl _
  | disabled i _ _ hs' =>
    subst hs'
    exact Grows.refl _
  | error hs' =>
    subst hs'
    exact Grows.refl _
  | copier c a hc hcopier => exact copierStep_grows hc hsections hcopier

/-- A step makes what its section makes, and nothing else. -/
theorem step_grows {a : Action} (hsections : SectionsGrow hash s a ok)
    (hstep : step hash s a = some s') : Grows ok s.files s'.files := by
  obtain ⟨-, hopen | hclose | hop | hthread | hback⟩ := step_cases hstep
  · exact stepOpen_grows hsections.toCallsGrow hopen
  · exact stepClose_grows hclose
  · exact stepFileOp_grows hsections.toCallsGrow hop
  · obtain ⟨-, -, hfiles, -⟩ := stepThread_frame hthread
    exact Grows.of_heap (by rw [hfiles])
  · exact stepBackup_grows hsections hback

end

end TokuBackup.Lifecycle
