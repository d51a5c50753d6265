import TokuBackup.Lifecycle.OpenRace

/-!
# Current names among racing opens

Between `realpath` in `open` and `get_or_create_locked` the opened file may lose its path, and
the table then makes or finds a source file under a name that the file does not have. That one
look-up is all that an `open` can do to the names: in every run in which it finds the file at
the resolved path, and in which the renames of tracked files are captured, each source file has
the name of its file, and the table finds it there.
-/

namespace TokuBackup.Lifecycle.OpenRace

open Kernel Table Lib

/-- The file that the fd has opened has no name but the resolved one, unless a rename away from
there is still to be captured. -/
def AttachOk (s : State) (fd : Nat) : Prop :=
  ∀ d ∈ s.base.fds fd, ∀ full_source_file_path ∈ s.resolved fd, ∀ q,
    s.base.names q = some d.inode →
      q = full_source_file_path ∨ s.base.fileOp = .renamed full_source_file_path q

/-- A rename of a file that a tracked fd refers to is captured, and the capture finds what it
needs; and `open` takes the source file of the path that the opened file has. -/
def NamesOk (hash : Path → Nat) (s : State) : Action → Prop
  | .base (.renameCapture created renamed enoent) =>
    NamesFit hash s.base (.renameCapture created renamed enoent)
  | .base (.openAttach fd) => AttachOk s fd
  | _ => True

section

variable {hash : Path → Nat} {s s' s₀ : State} {a : Lifecycle.Action}

/-- An fd keeps its resolved path until it takes the source file of that path. -/
def Resolved (s : State) : Prop :=
  ∀ fd full_source_file_path, s.resolved fd = some full_source_file_path →
    ∃ d, s.base.fds fd = some d ∧ d.stage = .opened ∧ full_source_file_path = d.path

structure Tracks (hash : Path → Nat) (s : State) : Prop where
  known : Known hash s.base
  resolved : Resolved s

theorem tracks_initial (h : Initial s) : Tracks hash s := by
  refine ⟨known_initial h.base, fun fd full_path hfull => ?_⟩
  rw [h.resolved] at hfull
  cases hfull

theorem Tracks.delegate (h : Tracks hash s) (hok : NamesFit hash s.base a)
    (hdelegate : delegate hash s a = some s') (ha : ∀ fd, a ≠ .openAttach fd) :
    Tracks hash s' := by
  obtain ⟨hstep, hresolved, -⟩ := delegate_eq hdelegate
  refine ⟨(h.known.step hok hstep).1, fun fd full_path hfull => ?_⟩
  rw [hresolved] at hfull
  obtain ⟨d, hd, hopened, hpath⟩ := h.resolved fd full_path hfull
  exact ⟨d, opened_kept hstep ha hd hopened, hopened, hpath⟩

/-- Only the base and the resolved paths matter. -/
theorem Tracks.congr (h : Tracks hash s) (hbase : s'.base = s.base)
    (hresolved : s'.resolved = s.resolved) : Tracks hash s' := by
  refine ⟨hbase ▸ h.known, fun fd full_path hfull => ?_⟩
  rw [hresolved] at hfull
  rw [hbase]
  exact h.resolved fd full_path hfull

/-- `realpath` fails in `open`: the fd stays untracked. -/
theorem Tracks.untrack (h : Tracks hash s) {fd : Nat} {d : Fd} (hd : s.base.fds fd = some d)
    (hopened : d.stage = .opened) (hnone : s.resolved fd = none)
    (hname : s.base.names d.path = none)
    (hdelegate : OpenRace.delegate hash s (.openAttach fd) = some s') : Tracks hash s' := by
  obtain ⟨hstep, hresolved, -⟩ := delegate_eq hdelegate
  have hok : NamesFit hash s.base (.openAttach fd) := by
    refine ⟨trivial, fun d' hd' _ => Or.inl ?_⟩
    rw [hd] at hd'
    cases hd'
    exact hname
  have hfds : s'.base.fds = Function.update s.base.fds fd none := by
    unfold Lifecycle.step at hstep
    split at hstep
    · cases hstep
    · simp only [stepOpen, hd, hopened, if_true, if_pos hname] at hstep
      rw [← Option.some.inj hstep]
  refine ⟨(h.known.step hok hstep).1, fun fd' full_path hfull => ?_⟩
  rw [hresolved] at hfull
  have hne : fd' ≠ fd := by
    intro hfd
    rw [hfd, hnone] at hfull
    cases hfull
  rw [hfds, Function.update_of_ne hne]
  exact h.resolved fd' full_path hfull

theorem Tracks.resolve (h : Tracks hash s) {fd : Nat} {d : Fd} (hd : s.base.fds fd = some d)
    (hopened : d.stage = .opened) :
    Tracks hash { s with resolved := Function.update s.resolved fd (some d.path) } := by
  refine ⟨h.known, fun fd' full_path hfull => ?_⟩
  change Function.update s.resolved fd (some d.path) fd' = some full_path at hfull
  rw [Function.update_apply] at hfull
  split at hfull
  · rename_i hfd
    cases hfull
    exact ⟨d, by rw [hfd]; exact hd, hopened, rfl⟩
  · exact h.resolved fd' full_path hfull

/-- `get_or_create_locked` with the resolved path, whatever that path names by now. -/
theorem known_attach {b : Lifecycle.State} (h : Known hash b) {fd : Nat} {d : Fd}
    (hd : b.fds fd = some d) (hopened : d.stage = .opened)
    (hplace : ∀ q, b.names q = some d.inode → q = d.path ∨ b.fileOp = .renamed d.path q) :
    Known hash (b.attempt (b.files.getOrCreate hash d.path) fun (source, files) =>
      ({ b with files }).moveFd fd d (.attached source)) := by
  obtain ⟨hb, hopNamed, hspace, hcurrent, hsize⟩ := h
  have hheld : b.heldBy (.fd fd) = none := by rw [heldBy_fd hd, hopened]; rfl
  obtain ⟨p, F, hrun, heffect, -, hbase⟩ :=
    hb.getOrCreate (a := .openAttach fd) d.path hheld
  rw [hrun]
  let b' : Lifecycle.State := ({ b with files := F }).moveFd fd d (.attached p)
  change Known hash b'
  have hfds : b'.fds = Function.update b.fds fd (some { d with stage := .attached p }) := rfl
  have hnames : SameNames b b' := ⟨rfl, rfl, rfl⟩
  have hb' : Base hash False b' := by
    refine hbase b' rfl ?_ (fun h hh => ?_) rfl
    · rw [heldBy_moveFd, if_pos rfl]
      rfl
    · rw [heldBy_moveFd, if_neg hh]
      rfl
  have hcapture : ¬ b.AtRename (.openAttach fd) := by
    intro hcapture
    obtain ⟨⟨_, _, _, hact⟩, -⟩ := hcapture
    cases hact
  refine ⟨hb', hopNamed.congr rfl fun op hop => ?_, ?_, ?_, fun fd' q hq => ?_⟩
  · exact Or.inr (Or.inr hop.symm)
  · refine hspace.openFd (fun d' hd' => ?_) rfl rfl hfds
    cases hd'
    exact hspace.fds fd d hd
  · exact hcurrent.attach hb' heffect hcapture hnames hfds hrun hplace
  · refine hsize fd' q ?_
    rw [State.mapped, hfds, Function.update_apply] at hq
    split at hq
    · cases hq
    · exact hq

theorem Tracks.attach (h : Tracks hash s) {fd : Nat} {d : Fd} (hd : s.base.fds fd = some d)
    {full_path : Path} (hfull : s.resolved fd = some full_path) (hok : AttachOk s fd) :
    Tracks hash { s with
      base := s.base.attempt (s.base.files.getOrCreate hash full_path) fun (source, files) =>
        ({ s.base with files }).moveFd fd d (.attached source)
      resolved := Function.update s.resolved fd none } := by
  obtain ⟨d', hd', hopened, rfl⟩ := h.resolved fd full_path hfull
  cases hd.symm.trans hd'
  refine ⟨known_attach h.known hd hopened (hok d hd d.path hfull), fun fd' full_path' hfull' => ?_⟩
  change Function.update s.resolved fd none fd' = some full_path' at hfull'
  rw [Function.update_apply] at hfull'
  split at hfull'
  · cases hfull'
  · rename_i hne
    obtain ⟨d₁, hd₁, hopened₁, hpath⟩ := h.resolved fd' full_path' hfull'
    exact ⟨d₁, (attach_fds_ne hne).trans hd₁, hopened₁, hpath⟩

theorem tracks_step {a : Action} (h : Tracks hash s) (hok : NamesOk hash s a)
    (hstep : step hash s a = some s') : Tracks hash s' := by
  have hplain : ∀ b, delegate hash s b = some s' → (∀ fd, b ≠ .openAttach fd) →
      (∀ created renamed enoent, b ≠ .renameCapture created renamed enoent) → Tracks hash s' :=
    fun b hdelegate hattach hrename =>
      h.delegate (namesFit_of_ne hattach hrename) hdelegate hattach
  unfold step at hstep
  split at hstep
  · cases hstep
  · cases a with
    | resolve fd =>
      dsimp only at hstep
      split at hstep
      · rename_i d hd
        split at hstep
        · rename_i hopened
          split at hstep
          · rename_i hname
            obtain ⟨s₁, hdelegate, rfl⟩ := Option.map_eq_some_iff.mp hstep
            exact (h.untrack hd hopened.1 hopened.2 hname hdelegate).congr rfl rfl
          · cases hstep
            exact h.resolve hd hopened.1
        · cases hstep
      · cases hstep
    | isPrefix fd =>
      dsimp only at hstep
      split at hstep
      · split at hstep
        · cases hstep
        · split at hstep
          · exact hplain _ hstep (by simp) (by simp)
          · cases hstep
            exact h.congr rfl rfl
      · cases hstep
    | base a =>
      cases a with
      | openAttach fd =>
        dsimp only at hstep
        split at hstep
        · rename_i d full_path hd hfull
          split at hstep
          · cases hstep
          · cases hstep
            exact h.attach hd hfull hok
        · cases hstep
      | openCapture fd opened created =>
        dsimp only at hstep
        split at hstep
        · exact hplain _ hstep (by simp) (by simp)
        · split at hstep
          · split at hstep
            · split at hstep
              · cases hstep
                exact h.congr rfl rfl
              · obtain ⟨s₁, hdelegate, rfl⟩ := Option.map_eq_some_iff.mp hstep
                exact (h.delegate (namesFit_of_ne (by simp) (by simp))
                  hdelegate (by simp)).congr rfl rfl
            · cases hstep
          · cases hstep
      | renameCapture created renamed enoent =>
        dsimp only at hstep
        split at hstep
        · cases hstep
        · exact h.delegate hok hstep (by simp)
      | _ =>
        dsimp only at hstep
        split at hstep
        · cases hstep
        · exact hplain _ hstep (by simp) (by simp)

/-! ## The main result -/

theorem prepareNext_delegate {opened created : Bool}
    (hstep : step hash s (.base (.prepareNext opened created)) = some s') :
    delegate hash s (.prepareNext opened created) = some s' := by
  unfold step at hstep
  split at hstep
  · cases hstep
  · dsimp only at hstep
    split at hstep
    · cases hstep
    · exact hstep

/-- In every run whose steps meet the condition, when no rename is between the real call and
its section: the source file of a tracked fd has the name `q` of the fd's file, and the table
finds it under `q`; and when the start of a session comes to the fd, the file is not marked
and not excluded and every call succeeds, it makes the destination at the translated `q`. -/
theorem names_current (hash : Path → Nat) (hinit : Initial s₀) {as : List Action}
    (hok : RunOk (step hash) (NamesOk hash) s₀ as) (hrun : run (step hash) s₀ as = some s)
    (hop : ∀ old_path new_path, s.base.fileOp ≠ .renamed old_path new_path) :
    ∀ fd d p q, s.base.fds fd = some d → d.stage.source = some p →
      s.base.names q = some d.inode →
      s.base.files.name p = some q ∧ s.base.files.get hash q = .ok (some p) ∧
      ∀ D dest s', s.base.backup = .preparing fd → s.base.session = some D →
        s.base.mapped fd = some p → D.translatePrefixOfRealpath q = some dest →
        D.fileIsExcluded dest = false → s.base.files.dest p = none →
        (∀ f, s.base.files.heap p = some f → f.unlinked = false) →
        step hash s (.base (.prepareNext true true)) = some s' →
        ∃ d', s'.base.files.dest p = some d' ∧ d'.path = dest := by
  obtain ⟨⟨hb, -, -, hcurrent, hsize⟩, -⟩ :=
    run_invariant (fun _ _ _ hs hok hstep => tracks_step hs hok hstep) (tracks_initial hinit) hok
      hrun
  intro fd d p q hd hp hq
  have hname : s.base.files.name p = some q := by
    obtain hname | ⟨old_path, hs, -⟩ := hcurrent.named fd d p q hd hp hq
    · exact hname
    · exact absurd hs (hop old_path q)
  have hlive : s.base.files.heap p ≠ none := hb.held (.fd fd) p (by rw [heldBy_fd hd, hp])
  refine ⟨hname, hb.rep.get_some ((hb.mem p).mpr hlive) hname, ?_⟩
  intro D dest s' hbackup hsession hmapped hdest hin hnone hlinked hstep
  obtain ⟨F', d', hprepare, hd', hpath⟩ :=
    prepare_current hb hlive hname hnone hlinked hdest hin
  obtain ⟨hbase, -⟩ := delegate_eq (prepareNext_delegate hstep)
  have hstep : stepBackup hash s.base (.prepareNext true true) = some s'.base := by
    unfold Lifecycle.step at hbase
    split at hbase
    · cases hbase
    · exact hbase
  simp only [stepBackup] at hstep
  rw [hbackup, hsession] at hstep
  dsimp only at hstep
  rw [if_pos (hsize fd p hmapped), hmapped] at hstep
  dsimp only at hstep
  rw [hprepare] at hstep
  rw [← Option.some.inj hstep]
  exact ⟨d', hd', hpath⟩

end

/-! ## Runs -/

/-- `open` takes the source file of a path that names its file. -/
def Attaches (s : State) : Action → Prop
  | .base (.openAttach fd) =>
    ∀ d ∈ s.base.fds fd, s.resolved fd = some d.path ∧ s.base.names d.path = some d.inode
  | _ => True

instance decidableAttaches (s : State) (a : Action) : Decidable (Attaches s a) := by
  apply @Action.casesOn (fun a => Decidable (Attaches s a)) a
  case base =>
    intro a
    apply @Lifecycle.Action.casesOn (fun a => Decidable (Attaches s (.base a))) a
    case openAttach =>
      intro fd
      unfold Attaches
      infer_instance
    all_goals
      intros
      exact isTrue trivial
  all_goals
    intros
    exact isTrue trivial

/-- A condition that can be computed. -/
theorem namesOk_of_attaches {hash : Path → Nat} {s : State} {a : Action}
    (hspace : Namespace s.base) (h : Attaches s a ∧ Captured hash s a) : NamesOk hash s a := by
  cases a with
  | base a =>
    cases a with
    | openAttach fd =>
      intro d hd full_path hfull q hq
      obtain ⟨hresolved, hname⟩ := h.1 d hd
      cases hresolved.symm.trans hfull
      exact Or.inl (hspace.inj q d.path d.inode hq hname)
    | renameCapture created renamed enoent => exact namesFit_of_captured h.2
    | _ => trivial
  | _ => trivial

/-- An open file is renamed during one backup; another backup has begun. -/
def renamedBetweenBackups : List Action :=
  [.base (.openReal 0 ['/', 's', '/', 'a'] false), .resolve 0, .base (.openAttach 0),
    .base (.openPublish 0), .base (.openCapture 0 true true), .base (.startSession slashS),
    .base (.prepareNext true true), .base (.prepareNext true true),
    .base (.renameStart ['/', 's', '/', 'a'] ['/', 's', '/', 'b']), .base (.renameReal true),
    .base (.renameCapture true true false), .base .stopCopy, .base .endSession,
    .base .disableNext, .base .disableNext, .base (.startSession slashS)]

theorem names_current_renamedBetweenBackups :
    ∃ s s', run (step List.length) start renamedBetweenBackups = some s ∧
      s.base.files.name 0 = some ['/', 's', '/', 'b'] ∧
      s.base.files.get List.length ['/', 's', '/', 'b'] = .ok (some 0) ∧
      step List.length s (.base (.prepareNext true true)) = some s' ∧
      ∃ d, s'.base.files.dest 0 = some d ∧ d.path = ['/', 'd', '/', 'b'] := by
  have hin : RunOk (step List.length) (fun s a => Attaches s a ∧ Captured List.length s a) start
      renamedBetweenBackups := by
    decide +kernel
  have hok : RunOk (step List.length) (NamesOk List.length) start renamedBetweenBackups :=
    runOk_mono
      (fun s a s' hs hin hstep => tracks_step hs (namesOk_of_attaches hs.known.space hin) hstep)
      (fun s a hs => namesOk_of_attaches hs.known.space) (tracks_initial initial_start) hin
  have hrun : ∃ s s' d f, run (step List.length) start renamedBetweenBackups = some s ∧
      step List.length s (.base (.prepareNext true true)) = some s' ∧ s.base.fileOp = .free ∧
      s.base.fds 0 = some d ∧ d.stage = .usable 0 ∧
      s.base.names ['/', 's', '/', 'b'] = some d.inode ∧ s.base.backup = .preparing 0 ∧
      s.base.session = some slashS ∧ s.base.files.heap 0 = some f ∧ f.unlinked = false ∧
      f.destinationFile = none :=
    ⟨_, _, _, _, rfl, rfl, rfl, rfl, rfl, rfl, rfl, rfl, rfl, rfl, rfl⟩
  obtain ⟨s, s', d, f, hrun, hstep, hop, hd, hstage, hname, hbackup, hsession, hf,
    hlinked, hnone⟩ :=
    hrun
  have hmapped : s.base.mapped 0 = some 0 := by rw [mapped_of_fd hd, hstage]; rfl
  obtain ⟨hnamed, hget, hprepared⟩ :=
    names_current List.length initial_start hok hrun (by simp [hop]) 0 d 0
      ['/', 's', '/', 'b'] hd (by rw [hstage]; rfl) hname
  refine ⟨s, s', hrun, hnamed, hget, hstep, ?_⟩
  refine hprepared slashS ['/', 'd', '/', 'b'] s' hbackup hsession hmapped rfl rfl ?_ ?_ hstep
  · rw [Files.dest, hf]
    exact hnone
  · intro g hg
    rw [hf] at hg
    cases hg
    exact hlinked

/-- A file is renamed while it is open, and no backup is running. -/
def renamedWithoutSession : List Action :=
  [.base (.openReal 0 ['/', 's', '/', 'a'] false), .resolve 0, .base (.openAttach 0),
    .base (.openPublish 0), .base (.openCapture 0 true true),
    .base (.renameStart ['/', 's', '/', 'a'] ['/', 's', '/', 'b']), .base (.renameReal true),
    .base (.renameCapture true true false)]

/-- The source file keeps the old name. -/
theorem not_names_current_renamedWithoutSession :
    ¬ ∀ hash s₀ as s, Initial s₀ → run (step hash) s₀ as = some s → Quiet s.base →
      ∀ fd d p q, s.base.fds fd = some d → d.stage = .usable p →
        s.base.names q = some d.inode →
        s.base.files.name p = some q ∧ s.base.files.get hash q = .ok (some p) := by
  intro h
  have hrun : ∃ s d, run (step List.length) start renamedWithoutSession = some s ∧
      s.base.fds 0 = some d ∧ (∀ fd, s.base.fds (fd + 1) = none) ∧ d.stage = .usable 0 ∧
      s.base.names ['/', 's', '/', 'b'] = some d.inode ∧
      s.base.files.name 0 = some ['/', 's', '/', 'a'] ∧ s.base.threads = [.idle, .idle] ∧
      s.base.fileOp = .free ∧ s.base.backup = .idle ∧ s.base.fault = none :=
    ⟨_, _, rfl, rfl, fun _ => rfl, rfl, rfl, rfl, rfl, rfl, rfl, rfl⟩
  obtain ⟨s, d, hrun, hd, hfds, hstage, hname, hold, hthreads, hop, hbackup, hfault⟩ := hrun
  have hquiet : Quiet s.base := by
    refine ⟨fun fd d' hd' => ?_, by simp [hthreads], hop, by simp [hbackup], hfault⟩
    cases fd with
    | zero =>
      rw [hd] at hd'
      cases hd'
      exact ⟨0, hstage⟩
    | succ fd =>
      rw [hfds fd] at hd'
      cases hd'
  obtain ⟨hnew, -⟩ := h _ _ _ s initial_start hrun hquiet 0 d 0 _ hd hstage hname
  rw [hold] at hnew
  exact absurd hnew (by decide)

end TokuBackup.Lifecycle.OpenRace
