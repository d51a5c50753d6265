import TokuBackup.Lifecycle.Counts

/-!
# Users of destinations

A data call that has fetched a destination uses it without the table's mutex, and so does
the copier in `copy_file_data`. Each of them holds a reference to the file, through its fd
or by itself, so that another party that removes the destination sees a count above one. The
end of the session does not look at the users; it waits until no call is inside the session.
-/

namespace TokuBackup.Lifecycle

open Kernel Table Lib

section

variable {hash : Path → Nat} {exact : Prop} {s s' s₀ : State} {a : Action} {p : Ptr} {id : Nat}

/-! ## Destinations over a step -/

theorem destination_update {o : Option SourceFile}
    (hheap : s'.files.heap = Function.update s.files.heap p o) (q : Ptr) :
    s'.destination q = if q = p then (o.bind SourceFile.destinationFile).map DestinationFile.id
      else s.destination q := by
  rw [State.destination, hheap, Function.update_apply]
  split
  · rfl
  · rfl

theorem destination_of_heap {f : SourceFile} (hf : s.files.heap p = some f) :
    s.destination p = f.destinationFile.map DestinationFile.id := by
  rw [State.destination, hf, Option.bind_some]

/-- A holder that is not about to remove the destination, and still holds the file after the
step, finds the destination in its place. -/
theorem Base.destination_kept (hb : Base hash exact s) (hb' : Base hash exact s')
    (heffect : Effect s a s'.files) {h : Holder} (hheld : s.heldBy h = some p)
    (hheld' : s'.heldBy h = some p) (hbusy : ¬ s.Unhooking h)
    (hrunning : ∀ i, s.backup ≠ .disabling i) (hd : s.destination p = some id) :
    s'.destination p = some id := by
  obtain ⟨g, hg⟩ := Option.ne_none_iff_exists'.mp (hb.held h p hheld)
  have hkeep : ∀ q o, s'.files.heap = Function.update s.files.heap q o →
      (p = q → (o.bind SourceFile.destinationFile).map DestinationFile.id = some id) →
      s'.destination p = some id := by
    intro q o hheap hsame
    rw [destination_update hheap]
    split
    · rename_i hq
      exact hsame hq
    · exact hd
  have hdest : ∀ {q f}, s.files.heap q = some f → p = q →
      f.destinationFile.map DestinationFile.id = some id := by
    intro q f hf hq
    rw [← destination_of_heap hf, ← hq, hd]
  cases heffect with
  | same hheap => rw [State.destination, hheap, ← State.destination, hd]
  | added q path hdead hheap =>
    refine hkeep q _ hheap fun hq => ?_
    rw [hq, hdead] at hg
    cases hg
  | counted q f n hf hheap =>
    refine hkeep q _ hheap fun hq => ?_
    have hsome := hdest hf hq
    exact hsome
  | deleted q f hf hone hheap =>
    refine hkeep q _ hheap fun hq => ?_
    have hlive := hb'.held h p hheld'
    rw [hheap, hq, Function.update_self] at hlive
    exact absurd rfl hlive
  | created q f d hf hnone hheap =>
    refine hkeep q _ hheap fun hq => ?_
    have hsome := hdest hf hq
    rw [hnone] at hsome
    cases hsome
  | unhooked h' q f hun hh' hf hone hheap =>
    refine hkeep q _ hheap fun hq => ?_
    -- the remover and the user are two holders
    have hne : h ≠ h' := by
      intro heq
      rw [heq] at hbusy
      exact hbusy hun
    rw [hq] at hheld
    have := hb.two_le hheld hh' hne hf
    omega
  | disabled i q f hi => exact absurd hi (hrunning i)
  | marked path q f d ha hop hf hmore hsame hheap =>
    refine hkeep q _ hheap fun hq => ?_
    have hsome := hdest hf hq
    have hd' : d = f.destinationFile := by
      refine hsame ?_
      cases hfd : f.destinationFile with
      | none =>
        rw [hfd] at hsome
        cases hsome
      | some d => rfl
    rw [hd']
    exact hsome
  | renamed old_path new_path q f d ha hop hf hname hid hheap =>
    refine hkeep q _ hheap fun hq => ?_
    have hsome := hdest hf hq
    obtain ⟨d', hd', hid'⟩ := Option.map_eq_some_iff.mp hsome
    rw [Option.bind_some, Option.map_some, hid d' hd', hid']

/-! ## The users -/

/-- The fd is in use and attached to the source file. -/
def State.InUse (s : State) (fd : Nat) (source : Ptr) : Prop :=
  ∃ d, s.fds fd = some d ∧ d.stage = .usable source

/-- Every call is on an fd in use; what a call or the copier has fetched is still there; and
nobody is inside the session while it starts or ends. -/
structure Used (s : State) : Prop where
  called : ∀ (t fd : Nat) source, s.threads[t]? = some (.called fd source) → s.InUse fd source
  fetched : ∀ (t fd : Nat) source dest, s.threads[t]? = some (.fetched fd source dest) →
    s.InUse fd source ∧ ∀ id, dest = some id → s.destination source = some id
  copying : ∀ c dest, s.backup = .copying c → c.pc = .copying dest →
    s.destination c.file = some dest
  reader : s.backup.exclusive = true → s.noReader = true

theorem State.InUse.held {fd : Nat} (h : s.InUse fd p) : s.heldBy (.fd fd) = some p := by
  obtain ⟨d, hd, hstage⟩ := h
  rw [heldBy_fd hd, hstage]
  rfl

theorem State.InUse.not_unhooking {fd : Nat} (h : s.InUse fd p) : ¬ s.Unhooking (.fd fd) := by
  obtain ⟨d, hd, hstage⟩ := h
  intro hun
  obtain ⟨d', q, hd', hclosing⟩ := hun
  rw [hd] at hd'
  cases hd'
  rw [hstage] at hclosing
  cases hclosing

theorem noReader_fetched (h : s.noReader = true) {t fd : Nat} {source : Ptr} {dest : Option Nat}
    (ht : s.threads[t]? = some (.fetched fd source dest)) : False := by
  have hall := List.all_eq_true.mp h _ (List.mem_of_getElem? ht)
  cases hall

/-- What a call fetched is kept by a step that leaves its fd alone. -/
theorem Used.fetched_kept (hu : Used s) (hb : Base hash exact s) (hb' : Base hash exact s')
    (heffect : Effect s a s'.files)
    (hfds : ∀ fd q, s.InUse fd q → (∃ t : Nat, s.threads[t]? = some (.called fd q) ∨
      ∃ dest, s.threads[t]? = some (.fetched fd q dest)) → s'.InUse fd q)
    {t fd : Nat} {source : Ptr} {dest : Option Nat}
    (ht : s.threads[t]? = some (.fetched fd source dest)) :
    s'.InUse fd source ∧ ∀ id, dest = some id → s'.destination source = some id := by
  obtain ⟨huse, hdest⟩ := hu.fetched t fd source dest ht
  have huse' := hfds fd source huse ⟨t, Or.inr ⟨dest, ht⟩⟩
  refine ⟨huse', fun id hid => ?_⟩
  refine hb.destination_kept hb' heffect huse.held huse'.held huse.not_unhooking (fun i hi => ?_)
    (hdest id hid)
  refine noReader_fetched (hu.reader ?_) ht
  rw [hi]
  rfl

/-- What the copier fetched is kept while it stays in `copy_file_data`. -/
theorem Used.copying_kept (hu : Used s) (hb : Base hash exact s) (hb' : Base hash exact s')
    (heffect : Effect s a s'.files) {c : Copier} {dest : Nat} (hc : s.backup = .copying c)
    (hc' : s'.backup = .copying c) (hpc : c.pc = .copying dest) :
    s'.destination c.file = some dest := by
  have hheld : ∀ t : State, t.backup = .copying c → t.heldBy .copier = some c.file := by
    intro t ht
    rw [State.heldBy, ht]
    rfl
  refine hb.destination_kept hb' heffect (hheld s hc) (hheld s' hc') (fun hun => ?_)
    (fun i hi => ?_) (hu.copying c dest hc hpc)
  · obtain ⟨c', hcc, hcopied⟩ := hun
    rw [hc] at hcc
    cases hcc
    rw [hpc] at hcopied
    cases hcopied
  · rw [hc] at hi
    cases hi

/-- A step in which no thread moves, and which keeps the fds of calls. -/
theorem Used.step (hu : Used s) (hb : Base hash exact s) (hb' : Base hash exact s')
    (heffect : Effect s a s'.files)
    (hfds : ∀ fd q, s.InUse fd q → (∃ t : Nat, s.threads[t]? = some (.called fd q) ∨
      ∃ dest, s.threads[t]? = some (.fetched fd q dest)) → s'.InUse fd q)
    (hthreads : s'.threads = s.threads)
    (hcopying : ∀ c dest, s'.backup = .copying c → c.pc = .copying dest →
      s.backup = .copying c ∨ s'.destination c.file = some dest)
    (hreader : s'.backup.exclusive = true → s.noReader = true) : Used s' := by
  refine ⟨fun t fd source ht => ?_, fun t fd source dest ht => ?_,
    fun c dest hc hpc => ?_, fun he => ?_⟩
  · rw [hthreads] at ht
    exact hfds fd source (hu.called t fd source ht) ⟨t, Or.inl ht⟩
  · rw [hthreads] at ht
    exact hu.fetched_kept hb hb' heffect hfds ht
  · rcases hcopying c dest hc hpc with hold | hdone
    · exact hu.copying_kept hb hb' heffect hold hc hpc
    · exact hdone
  · rw [State.noReader, hthreads]
    exact hreader he

/-! ## The steps -/

/-- The fd of a call in flight. -/
def Thread.fd : Thread → Option Nat
  | .idle => none
  | .called fd _ => some fd
  | .fetched fd _ _ => some fd

/-- No fd is closed while a call on it is in flight, and nothing is renamed. -/
def NotUsedAfterClose (s : State) : Action → Prop
  | .closeBegin fd => ∀ th ∈ s.threads, th.fd ≠ some fd
  | .renameStart _ _ | .renameReal _ | .renameCapture _ _ _ => False
  | _ => True

theorem used_stepThread (hu : Used s) {a : Action} (hstep : stepThread s a = some s') :
    Used s' := by
  have hset : ∀ (t : Nat) (th : Thread) (s' : State), s'.threads = s.threads.set t th →
      s'.fds = s.fds → s'.files = s.files → s'.backup = s.backup →
      (∀ fd q, th = .called fd q → s.InUse fd q) →
      (∀ fd q dest, th = .fetched fd q dest → s.backup.exclusive = false ∧ s.InUse fd q ∧
        dest = s.destination q) → Used s' := by
    intro t th s' hthreads hfds hfiles hbackup hcalled hfetched
    have hdest : ∀ q, s'.destination q = s.destination q := by
      intro q
      rw [State.destination, hfiles]
      rfl
    have huse : ∀ fd q, s.InUse fd q → s'.InUse fd q := by
      intro fd q hq
      rw [State.InUse, hfds]
      exact hq
    have hold : ∀ (t' : Nat) th', s'.threads[t']? = some th' →
      th' = th ∨ s.threads[t']? = some th' := by
      intro t' th' ht'
      rw [hthreads, List.getElem?_set] at ht'
      split at ht'
      · split at ht'
        · cases ht'
          exact Or.inl rfl
        · cases ht'
      · exact Or.inr ht'
    refine ⟨fun t' fd source ht' => ?_, fun t' fd source dest ht' => ?_, fun c dest hc hpc => ?_,
      fun he => ?_⟩
    · rcases hold t' _ ht' with hth | ht'
      · exact huse fd source (hcalled fd source hth.symm)
      · exact huse fd source (hu.called t' fd source ht')
    · rcases hold t' _ ht' with hth | ht'
      · obtain ⟨-, hq, hd⟩ := hfetched fd source dest hth.symm
        refine ⟨huse fd source hq, fun id hid => ?_⟩
        rw [hdest, ← hd, hid]
      · obtain ⟨hq, hd⟩ := hu.fetched t' fd source dest ht'
        refine ⟨huse fd source hq, fun id hid => ?_⟩
        rw [hdest]
        exact hd id hid
    · rw [hdest]
      exact hu.copying c dest (hbackup ▸ hc) hpc
    · rw [hbackup] at he
      rw [State.noReader, hthreads, List.all_eq_true]
      intro th' hth'
      rcases List.mem_or_eq_of_mem_set hth' with hmem | heq
      · exact List.all_eq_true.mp (hu.reader he) th' hmem
      · cases th with
        | idle => rw [heq]
        | called fd q => rw [heq]
        | fetched fd q dest =>
          obtain ⟨hbusy, -⟩ := hfetched fd q dest rfl
          rw [he] at hbusy
          cases hbusy
  have hfault : ∀ e, Used { s with fault := some e } := fun e =>
    ⟨hu.called, hu.fetched, hu.copying, hu.reader⟩
  cases threadStep_of_stepThread hstep with
  | call t fd d source _ hd hstage _ hs' =>
    subst hs'
    refine hset t (.called fd source) _ rfl rfl rfl rfl (fun fd' q hq => ?_) (by simp)
    cases hq
    exact ⟨d, hd, hstage⟩
  | fetch t fd source ht hbusy _ hsection =>
    obtain ⟨e, rfl⟩ | ⟨f, -, rfl⟩ := State.attempt_cases hsection
    · exact hfault e
    · refine hset t (.fetched fd source (s.destination source)) _ rfl rfl rfl rfl (by simp)
        fun fd' q dest hq => ?_
      cases hq
      exact ⟨hbusy, hu.called t fd source ht, rfl⟩
  | pass t fd source _ _ _ hs' =>
    subst hs'
    exact hset t .idle _ rfl rfl rfl rfl (by simp) (by simp)
  | use t fd source dest _ _ hs' =>
    subst hs'
    exact hset t .idle _ rfl rfl rfl rfl (by simp) (by simp)
  | misuse t fd source dest _ _ hs' =>
    subst hs'
    exact hfault _
  | skip t fd source _ hs' =>
    subst hs'
    exact hset t .idle _ rfl rfl rfl rfl (by simp) (by simp)

/-- The copier enters `copy_file_data` with the file's destination. -/
theorem copierStep_copying (hb : Base hash exact s) {c : Copier} (hc : s.backup = .copying c)
    {a : Action} (hstep : CopierStep hash s c s' a) :
    s'.backup.exclusive = false ∧ ∀ c' dest, s'.backup = .copying c' → c'.pc = .copying dest →
      s.backup = .copying c' ∨ s'.destination c'.file = some dest := by
  have hfault : ∀ e, let t : State := { s with fault := some e }
      t.backup.exclusive = false ∧ ∀ c' dest, t.backup = .copying c' → c'.pc = .copying dest →
        s.backup = .copying c' ∨ t.destination c'.file = some dest := by
    intro e
    refine ⟨by simp [hc, Backup.exclusive], fun c' dest hc' _ => Or.inl hc'⟩
  have hmove : ∀ (t : State) (pc : CopierPc), t.backup = .copying { c with pc } →
      (∀ dest, pc ≠ .copying dest) → t.backup.exclusive = false ∧
        ∀ c' dest, t.backup = .copying c' → c'.pc = .copying dest →
          s.backup = .copying c' ∨ t.destination c'.file = some dest := by
    intro t pc ht hpc
    rw [ht]
    refine ⟨rfl, fun c' dest hc' hdest => ?_⟩
    cases hc'
    exact absurd hdest (hpc dest)
  cases hstep with
  | opened _ _ hs' =>
    subst hs'
    exact hmove _ .opened rfl (by simp)
  | skipped ok _ _ hs' =>
    subst hs'
    exact hmove _ .closed rfl (by simp)
  | create created _ hsection =>
    obtain ⟨e, rfl⟩ | ⟨r, hrun, rfl⟩ := State.attempt_cases hsection
    · exact hfault e
    · obtain ⟨-, -, hdest⟩ := (hb.createDestination (a := .copierCreate created) hc created).ok hrun
      refine ⟨rfl, fun c' dest hc' hpc => ?_⟩
      cases hc'
      exact Or.inr (hdest dest hpc)
  | use dest _ _ hs' =>
    subst hs'
    exact ⟨by simp [hc, Backup.exclusive], fun c' dest hc' _ => Or.inl hc'⟩
  | misuse dest _ _ hs' =>
    subst hs'
    exact hfault _
  | done ok dest _ hs' =>
    subst hs'
    exact hmove _ (if ok then .copied else .closed) rfl (by cases ok <;> simp)
  | unhook _ hsection =>
    obtain ⟨e, rfl⟩ | ⟨F, -, rfl⟩ := State.attempt_cases hsection
    · exact hfault e
    · exact hmove _ .closed rfl (by simp)
  | release _ hsection =>
    obtain ⟨e, rfl⟩ | ⟨F, -, rfl⟩ := State.attempt_cases hsection
    · exact hfault e
    · exact ⟨rfl, by simp⟩

theorem stepBackup_copying (hb : Base hash exact s) (hu : Used s) {a : Action}
    (hstep : stepBackup hash s a = some s') :
    (s'.backup.exclusive = true → s.noReader = true) ∧
      ∀ c dest, s'.backup = .copying c → c.pc = .copying dest →
        s.backup = .copying c ∨ s'.destination c.file = some dest := by
  have hsame : ∀ t : State, t.backup = s.backup → (t.backup.exclusive = true → s.noReader = true) ∧
      ∀ c dest, t.backup = .copying c → c.pc = .copying dest →
        s.backup = .copying c ∨ t.destination c.file = some dest := by
    intro t ht
    rw [ht]
    exact ⟨hu.reader, fun c dest hc _ => Or.inl hc⟩
  have hmove : ∀ t : State, (∀ c, t.backup = .copying c → ∀ dest, c.pc ≠ .copying dest) →
      (t.backup.exclusive = true → s.noReader = true) →
      (t.backup.exclusive = true → s.noReader = true) ∧
        ∀ c dest, t.backup = .copying c → c.pc = .copying dest →
          s.backup = .copying c ∨ t.destination c.file = some dest :=
    fun t hpc hreader => ⟨hreader, fun c dest hc hdest => absurd hdest (hpc c hc dest)⟩
  cases backupStep_of_stepBackup hstep with
  | start D _ hreader hs' =>
    subst hs'
    exact hmove _ (by simp) fun _ => hreader
  | prepare opened created i D source hi _ _ _ hsection =>
    have hreader : s.noReader = true := hu.reader (by rw [hi]; rfl)
    obtain ⟨e, rfl⟩ | ⟨⟨files, result⟩, -, rfl⟩ := State.attempt_cases hsection
    · exact hsame _ rfl
    · cases result with
      | next => exact hmove _ (by simp [State.afterPrepare]) fun _ => hreader
      | out => exact hmove _ (by simp [State.afterPrepare]) fun _ => hreader
      | failed => exact hmove _ (by simp [State.afterPrepare]) fun _ => hreader
  | prepareSkip opened created i D hi _ _ _ hs' =>
    subst hs'
    exact hmove _ (by simp) fun _ => hu.reader (by rw [hi]; rfl)
  | prepared opened created i D hi _ _ hs' =>
    subst hs'
    exact hmove _ (by simp) fun _ => hu.reader (by rw [hi]; rfl)
  | copierStart i file D source destination _ _ _ hsection =>
    obtain ⟨e, rfl⟩ | ⟨r, -, rfl⟩ := State.attempt_cases hsection
    · exact hsame _ rfl
    · refine hmove _ (fun c hc dest => ?_) (by simp [Backup.exclusive])
      cases hc
      simp
  | stopCopy _ hs' =>
    subst hs'
    exact hmove _ (by simp) (by simp [Backup.exclusive])
  | endSession _ hreader hs' =>
    subst hs'
    exact hmove _ (by simp) fun _ => hreader
  | disable i source hi _ _ hsection =>
    have hreader : s.noReader = true := hu.reader (by rw [hi]; rfl)
    obtain ⟨e, rfl⟩ | ⟨F, -, rfl⟩ := State.attempt_cases hsection
    · exact hsame _ rfl
    · exact hmove _ (by simp) fun _ => hreader
  | disableSkip i hi _ _ hs' =>
    subst hs'
    exact hmove _ (by simp) fun _ => hu.reader (by rw [hi]; rfl)
  | disabled i _ _ hs' =>
    subst hs'
    exact hmove _ (by simp) (by simp [Backup.exclusive])
  | error hs' =>
    subst hs'
    exact hsame _ rfl
  | copier c a hc hcopier =>
    obtain ⟨hexclusive, hcopying⟩ := copierStep_copying hb hc hcopier
    refine ⟨fun he => ?_, hcopying⟩
    rw [hexclusive] at he
    cases he

theorem used_step (hu : Used s) (hb : Base hash exact s) (hb' : Base hash exact s')
    (heffect : Effect s a s'.files) (hok : NotUsedAfterClose s a)
    (hstep : step hash s a = some s') : Used s' := by
  have hsame : s'.fds = s.fds → ∀ fd q, s.InUse fd q →
    (∃ t : Nat, s.threads[t]? = some (.called fd q) ∨
      ∃ dest, s.threads[t]? = some (.fetched fd q dest)) → s'.InUse fd q := by
    intro hfds fd q hq _
    rw [State.InUse, hfds]
    exact hq
  have hbackup : ∀ t : State, t.backup = s.backup → (∀ c dest, t.backup = .copying c →
      c.pc = .copying dest → s.backup = .copying c ∨ t.destination c.file = some dest) ∧
      (t.backup.exclusive = true → s.noReader = true) := by
    intro t ht
    rw [ht]
    exact ⟨fun c dest hc _ => Or.inl hc, hu.reader⟩
  obtain ⟨-, hopen | hclose | hop | hthread | hback⟩ := step_cases hstep
  · obtain ⟨hthreads, -, hb₀⟩ := stepOpen_frame hopen
    obtain ⟨hcopying, hreader⟩ := hbackup s' hb₀
    refine hu.step hb hb' heffect (fun fd q hq _ => ?_) hthreads hcopying hreader
    obtain ⟨d, hd, hstage⟩ := hq
    exact ⟨d, (stepOpen_opens hopen).usable hd hstage, hstage⟩
  · obtain ⟨-, -, hthreads, -, -, hb₀, -⟩ := stepClose_frame hclose
    obtain ⟨hcopying, hreader⟩ := hbackup s' hb₀
    refine hu.step hb hb' heffect (fun fd q hq hcall => ?_) hthreads hcopying hreader
    obtain ⟨d, hd, hstage⟩ := hq
    refine ⟨d, stepClose_usable hclose hd hstage fun ha => ?_, hstage⟩
    rw [ha] at hok
    obtain ⟨t, ht | ⟨dest, ht⟩⟩ := hcall
    · exact hok _ (List.mem_of_getElem? ht) rfl
    · exact hok _ (List.mem_of_getElem? ht) rfl
  · obtain ⟨hfds, -, hthreads, -, hb₀, -⟩ := stepFileOp_frame hop
    obtain ⟨hcopying, hreader⟩ := hbackup s' hb₀
    exact hu.step hb hb' heffect (hsame hfds) hthreads hcopying hreader
  · exact used_stepThread hu hthread
  · obtain ⟨-, hfds, hthreads, -⟩ := stepBackup_frame hback
    obtain ⟨hreader, hcopying⟩ := stepBackup_copying hb hu hback
    exact hu.step hb hb' heffect (hsame hfds) hthreads hcopying hreader

theorem used_initial (h : Initial s) : Used s := by
  have hidle : ∀ (t : Nat) th, s.threads[t]? = some th → th = .idle :=
    fun t th ht => h.threads th (List.mem_of_getElem? ht)
  refine ⟨fun t fd source ht => ?_, fun t fd source dest ht => ?_,
    fun c dest hc => ?_, fun he => ?_⟩
  · cases hidle t _ ht
  · cases hidle t _ ht
  · rw [h.backup] at hc
    cases hc
  · rw [h.backup] at he
    cases he

/-! ## The main result -/

theorem NotUsedAfterClose.renameOk {a : Action} (h : NotUsedAfterClose s a) :
    RenameOk hash s a := by
  cases a with
  | renameCapture created renamed enoent => exact h.elim
  | _ => trivial

theorem used_run (hinit : Initial s₀) {as : List Action}
    (hok : RunOk (Lifecycle.step hash) NotUsedAfterClose s₀ as)
    (hrun : run (Lifecycle.step hash) s₀ as = some s) : Used s := by
  let Inv : State → Prop := fun s => (Base hash False s ∧ OpNamed s) ∧ Used s
  have hstep : ∀ s a s', Inv s → NotUsedAfterClose s a → Lifecycle.step hash s a = some s' →
      Inv s' := by
    intro s a s' hs hok hstep
    obtain ⟨⟨hb, hop⟩, hu⟩ := hs
    obtain ⟨hb', heffect⟩ := base_step hb hop.done hok.renameOk.fits False.elim hstep
    exact ⟨⟨hb', opNamed_step hop hstep⟩, used_step hu hb hb' heffect hok hstep⟩
  have hstart : Inv s₀ := ⟨⟨base_initial hinit, opNamed_initial hinit⟩, used_initial hinit⟩
  exact (run_invariant hstep hstart hok hrun).2

/-- In every run without renames, in which no fd is used after its close began, a
destination that a data call or the copier has fetched is still the file's destination: it
was neither closed nor deleted. -/
theorem destination_open_while_used (hash : Path → Nat) (hinit : Initial s₀) {as : List Action}
    (hok : RunOk (step hash) NotUsedAfterClose s₀ as) (hrun : run (step hash) s₀ as = some s) :
    (∀ (t fd : Nat) source dest, s.threads[t]? = some (.fetched fd source (some dest)) →
      s.destination source = some dest) ∧
    (∀ c dest, s.backup = .copying c → c.pc = .copying dest →
      s.destination c.file = some dest) := by
  have hu := used_run hinit hok hrun
  refine ⟨fun t fd source dest ht => ?_, hu.copying⟩
  exact (hu.fetched t fd source (some dest) ht).2 dest rfl

end

/-- A call and the copier use the destination while the other fd of the file is closed. -/
def closeWhileUsed : List Action :=
  [.startSession slashS, .prepareNext true true,
    .openReal 0 ['/', 's', '/', 'a'] false, .openAttach 0, .openPublish 0, .openCapture 0 true true,
    .openReal 1 ['/', 's', '/', 'a'] false, .openAttach 1, .openPublish 1, .openCapture 1 true true,
    .copierStart 0 ['a'], .copierOpen true, .call 0 0, .fetch 0, .copierCreate true,
    .closeBegin 1, .closeUnhook 1, .closeErase 1, .closeRelease 1, .closeReal 1]

instance decidableNotUsedAfterClose (s : State) (a : Action) :
    Decidable (NotUsedAfterClose s a) := by
  apply @Action.casesOn (fun a => Decidable (NotUsedAfterClose s a)) a
  case closeBegin =>
    intro fd
    unfold NotUsedAfterClose
    infer_instance
  case renameStart => exact fun _ _ => isFalse id
  case renameReal => exact fun _ => isFalse id
  case renameCapture => exact fun _ _ _ => isFalse id
  all_goals
    intros
    exact isTrue trivial

theorem destination_open_while_used_closeWhileUsed :
    ∃ s, run (step List.length) (start true) closeWhileUsed = some s ∧
      s.threads[0]? = some (.fetched 0 0 (some 0)) ∧ s.fds 1 = none ∧ s.destination 0 = some 0 := by
  have hok : RunOk (step List.length) NotUsedAfterClose (start true) closeWhileUsed := by
    decide +kernel
  have hrun : ∃ s, run (step List.length) (start true) closeWhileUsed = some s ∧
      s.threads[0]? = some (.fetched 0 0 (some 0)) ∧ s.fds 1 = none := ⟨_, rfl, rfl, rfl⟩
  obtain ⟨s, hrun, hfetched, hclosed⟩ := hrun
  obtain ⟨hused, -⟩ := destination_open_while_used List.length (initial_start true) hok hrun
  exact ⟨s, hrun, hfetched, hclosed, hused 0 0 0 0 hfetched⟩

end TokuBackup.Lifecycle
