import TokuBackup.Lifecycle.Frames

/-!
# Reference counts

When no operation is in flight only the descriptions of the fd map hold references, so that
the invariant of the machine says that the counts are exact. An unlink that cannot create
the destination leaves its reference behind, and so does a rename; a rename that fails takes
a file out of the table that an fd holds.
-/

namespace TokuBackup.Lifecycle

open Kernel Table Lib

section

variable {hash : Path → Nat} {exact : Prop} {s s' s₀ : State} {p : Ptr}

/-- No step leaves a reference behind or takes a held file out of the table. -/
def Balanced (hash : Path → Nat) (s : State) (a : Action) : Prop :=
  RenameOk hash s a ∧ UnlinkOk s a

theorem base_initial (h : Initial s) : Base hash exact s where
  rep := h.files ▸ rep_new
  fresh p f hf := by
    rw [h.files] at hf
    cases hf
  mem p := by
    rw [h.files]
    exact iff_of_false (not_mem_new p) fun hp => hp rfl
  counted p f hf := by
    rw [h.files] at hf
    cases hf
  held i p hp := by
    cases i with
    | fd fd => simp [State.heldBy, h.fds] at hp
    | fileOp => simp [State.heldBy, h.fileOp, FileOp.source] at hp
    | copier => simp [State.heldBy, h.backup, Backup.source] at hp
  check := by simp [h.fault]

theorem opNamed_initial (h : Initial s) : OpNamed s :=
  OpNamed.of_op (by simp [h.fileOp]) (by simp [h.fileOp])

/-- What every run keeps whose renames, and if `exact` is wanted whose unlinks, are as they
should be. -/
theorem base_run (exact : Prop) {ok : State → Action → Prop} (hrename : ∀ s a, ok s a →
    RenameOk hash s a)
    (hunlink : ∀ s a, ok s a → exact → UnlinkOk s a) (hinit : Initial s₀) {as : List Action}
    (hok : RunOk (step hash) ok s₀ as) (hrun : run (step hash) s₀ as = some s) :
    Base hash exact s ∧ OpNamed s := by
  let Inv : State → Prop := fun s => Base hash exact s ∧ OpNamed s
  have hstep : ∀ s a s', Inv s → ok s a → step hash s a = some s' → Inv s' := by
    intro s a s' hs hok hstep
    have hbase := base_step hs.1 hs.2.done (hrename s a hok).fits (hunlink s a hok) hstep
    exact ⟨hbase.1, opNamed_step hs.2 hstep⟩
  have hstart : Inv s₀ := ⟨base_initial hinit, opNamed_initial hinit⟩
  exact run_invariant hstep hstart hok hrun

/-! ## The main result -/

/-- Each count is the number of descriptions of the fd map that point to the file, and the
table holds the files with a positive count. -/
structure ReferencesExact (s : State) : Prop where
  counted : ∀ p f, s.files.heap p = some f →
    Counted (fun fd => s.mapped fd = some p) f.referenceCount
  listed : ∀ p, s.files.table.Mem p ↔ ∃ f, s.files.heap p = some f ∧ 0 < f.referenceCount

/-- In a quiet state an fd holds a reference exactly when the fd map has its description. -/
theorem Quiet.mapped (h : Quiet s) (fd : Nat) : s.mapped fd = s.heldBy (.fd fd) := by
  simp only [State.mapped, State.heldBy]
  cases hfd : s.fds fd with
  | none => rfl
  | some d =>
    obtain ⟨p, hp⟩ := h.fds fd d hfd
    simp only [Option.bind_some, hp, FdStage.mapped, FdStage.source]

theorem Quiet.holder (h : Quiet s) {i : Holder} (hi : s.heldBy i = some p) :
    ∃ fd, Holder.fd fd = i := by
  cases i with
  | fd fd => exact ⟨fd, rfl⟩
  | fileOp =>
    rw [State.heldBy, h.fileOp] at hi
    cases hi
  | copier =>
    cases hb : s.backup with
    | copying c => exact absurd hb (h.copier c)
    | idle | preparing _ | running | stopping | disabling _ =>
      rw [State.heldBy, hb] at hi
      cases hi

theorem Base.referencesExact (hb : Base hash True s) (hquiet : Quiet s) : ReferencesExact s := by
  refine ⟨fun p f hf => ?_, fun p => ?_⟩
  · obtain ⟨-, n, hn, -, heq⟩ := hb.counted p f hf
    have hinj : Function.Injective Holder.fd := fun i j hij => Holder.fd.inj hij
    have hfds := hn.comap hinj fun i hi => hquiet.holder hi
    rw [← heq trivial]
    refine hfds.congr fun fd => ?_
    rw [hquiet.mapped]
  · rw [hb.mem p]
    constructor
    · intro hp
      obtain ⟨f, hf⟩ := Option.ne_none_iff_exists'.mp hp
      exact ⟨f, hf, (hb.counted p f hf).1⟩
    · intro hp
      obtain ⟨f, hf, -⟩ := hp
      rw [hf]
      simp

/-- In every run whose steps are balanced the check of `remove_reference` never fails, and
when no operation is in flight the reference counts are exact; the table is empty when no fd
is open. -/
theorem references_exact (hash : Path → Nat) (hinit : Initial s₀) {as : List Action}
    (hok : RunOk (step hash) (Balanced hash) s₀ as) (hrun : run (step hash) s₀ as = some s) :
    s.fault ≠ some .check ∧
      (Quiet s → ReferencesExact s ∧
        ((∀ fd, s.fds fd = none) → ∀ p, ¬ s.files.table.Mem p)) := by
  obtain ⟨hb, -⟩ := base_run True (fun _ _ h => h.1) (fun _ _ h _ => h.2) hinit hok hrun
  refine ⟨hb.check, fun hquiet => ?_⟩
  have hexact := hb.referencesExact hquiet
  refine ⟨hexact, fun hclosed p hp => ?_⟩
  obtain ⟨f, hf, hpos⟩ := (hexact.listed p).mp hp
  obtain ⟨fd, hfd⟩ := (hexact.counted p f hf).exists_of_pos hpos
  rw [State.mapped, hclosed fd] at hfd
  cases hfd

end

/-! ## Runs -/

/-- Nothing has happened yet; the source directory `/s` may have a file `/s/a`. -/
def start (file : Bool) : State where
  names :=
    if file then Function.update (fun _ => none) ['/', 's', '/', 'a'] (some 0) else fun _ => none
  freshInode := 1
  files := Files.new
  fds := fun _ => none
  mapSize := 0
  session := none
  captureEnabled := false
  backup := .idle
  fileOp := .free
  threads := [.idle, .idle]
  fault := none

/-- Back up `/s` to `/d`, excluding nothing. -/
def slashS : DirectorySet := ⟨[(['/', 's'], ['/', 'd'])], fun _ => false⟩

theorem initial_start (file : Bool) : Initial (start file) := by
  have hnames : ∀ p i, (start file).names p = some i → p = ['/', 's', '/', 'a'] ∧ i = 0 := by
    intro p i hp
    cases file with
    | false => cases hp
    | true =>
      simp only [start, if_true, Function.update_apply] at hp
      split at hp
      · rename_i hpa
        cases hp
        exact ⟨hpa, rfl⟩
      · cases hp
  refine ⟨fun p q i hp hq => ?_, fun p i hp => ?_, rfl, fun _ => rfl, rfl, rfl, rfl, ?_, rfl⟩
  · rw [(hnames p i hp).1, (hnames q i hq).1]
  · rw [(hnames p i hp).2]
    exact Nat.one_pos
  · simp [start]

/-- During a backup a new file is renamed, copied and unlinked, and stays open. -/
def fileDuringBackup : List Action :=
  [.startSession slashS, .prepareNext true true,
    .openReal 0 ['/', 's', '/', 'b'] true, .openAttach 0, .openPublish 0, .openCapture 0 true true,
    .renameStart ['/', 's', '/', 'b'] ['/', 's', '/', 'c'], .renameReal true,
    .renameCapture true true false,
    .copierStart 0 ['c'], .copierOpen true, .copierCreate true, .copierUse, .copierDone true,
    .copierUnhook, .copierRelease,
    .unlinkStart ['/', 's', '/', 'c'], .unlinkReal true, .unlinkHold, .unlinkFinish true true,
    .stopCopy, .endSession, .disableNext, .disableNext]

instance decidableRenameOk (hash : Path → Nat) (s : State) (a : Action) :
    Decidable (RenameOk hash s a) := by
  unfold RenameOk
  generalize s.fileOp = op, s.session = session
  cases a with
  | renameCapture created renamed enoent =>
    cases op with
    | renamed old_path new_path =>
      cases session with
      | none => exact isTrue trivial
      | some D =>
        dsimp only
        generalize s.files.get hash old_path = found
        match found with
        | .ok (some target) => infer_instance
        | .ok none => infer_instance
        | .error e => infer_instance
    | _ => exact isTrue trivial
  | _ => exact isTrue trivial

instance decidableUnlinkOk (s : State) (a : Action) : Decidable (UnlinkOk s a) := by
  unfold UnlinkOk
  generalize s.fileOp = op
  cases a with
  | unlinkFinish created unlinked =>
    cases op with
    | unlinkHeld path source => infer_instance
    | _ => exact isTrue trivial
  | _ => exact isTrue trivial

instance decidableBalanced (hash : Path → Nat) (s : State) (a : Action) :
    Decidable (Balanced hash s a) :=
  inferInstanceAs (Decidable (RenameOk hash s a ∧ UnlinkOk s a))

theorem references_exact_fileDuringBackup :
    ∃ s, run (step List.length) (start false) fileDuringBackup = some s ∧
      (∃ f, s.files.heap 0 = some f ∧ f.referenceCount = 1) ∧ s.fault ≠ some .check ∧
      ReferencesExact s := by
  have hok : RunOk (step List.length) (Balanced List.length) (start false) fileDuringBackup := by
    decide +kernel
  have hrun : ∃ s, run (step List.length) (start false) fileDuringBackup = some s ∧
      (∃ f, s.files.heap 0 = some f ∧ f.referenceCount = 1) ∧ (∃ d, s.fds 0 = some d ∧
        d.stage = .usable 0) ∧ (∀ fd, s.fds (fd + 1) = none) ∧ s.threads = [.idle, .idle] ∧
      s.fileOp = .free ∧ s.backup = .idle ∧ s.fault = none :=
    ⟨_, rfl, ⟨_, rfl, rfl⟩, ⟨_, rfl, rfl⟩, fun _ => rfl, rfl, rfl, rfl, rfl⟩
  obtain ⟨s, hrun, hcount, ⟨d, hd, hstage⟩, hfds, hthreads, hop, hbackup, hfault⟩ := hrun
  obtain ⟨hcheck, hexact⟩ := references_exact List.length (initial_start false) hok hrun
  refine ⟨s, hrun, hcount, hcheck, (hexact ⟨fun fd d' hd' => ?_, ?_, hop, ?_, hfault⟩).1⟩
  · cases fd with
    | zero =>
      rw [hd] at hd'
      cases hd'
      exact ⟨0, hstage⟩
    | succ fd =>
      rw [hfds fd] at hd'
      cases hd'
  · simp [hthreads]
  · simp [hbackup]

/-- During a backup the file is unlinked, and its destination cannot be created first. -/
def unlinkWithoutDestination : List Action :=
  [.startSession slashS, .prepareNext true true, .unlinkStart ['/', 's', '/', 'a'],
    .unlinkReal true, .unlinkHold, .unlinkFinish false true]

theorem not_references_exact_unlinkWithoutDestination :
    ¬ ∀ hash s₀ as s, Initial s₀ → run (step hash) s₀ as = some s → Quiet s →
      ReferencesExact s := by
  intro h
  have hrun : ∃ s, run (step List.length) (start true) unlinkWithoutDestination = some s ∧
      (∃ f, s.files.heap 0 = some f ∧ f.referenceCount = 1) ∧ (∀ fd, s.fds fd = none) ∧
      s.threads = [.idle, .idle] ∧ s.fileOp = .free ∧ s.backup = .running ∧ s.fault = none :=
    ⟨_, rfl, ⟨_, rfl, rfl⟩, fun _ => rfl, rfl, rfl, rfl, rfl⟩
  obtain ⟨s, hrun, ⟨f, hf, hcount⟩, hfds, hthreads, hop, hbackup, hfault⟩ := hrun
  have hquiet : Quiet s :=
    ⟨fun fd d hd => by simp [hfds] at hd, by simp [hthreads], hop, by simp [hbackup], hfault⟩
  have hcounted := (h _ _ _ s (initial_start true) hrun hquiet).counted 0 f hf
  rw [hcount] at hcounted
  obtain ⟨fd, hfd⟩ := hcounted.exists_of_pos Nat.one_pos
  simp [State.mapped, hfds] at hfd

end TokuBackup.Lifecycle
