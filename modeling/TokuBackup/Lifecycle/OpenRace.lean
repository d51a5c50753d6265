import TokuBackup.Lifecycle.CurrentNames

/-!
# `open` among renames and unlinks

The interposed `open` resolves the path after the real `open` has fixed the file: once in
`setup_description_and_source_file`, before it takes the source file from the table, and
twice in `capture_open`, under the mutex of the table. Here each resolution is a step of its
own. An `open` with `O_CREAT` holds the mutex of the file operations; for the others a rename
or an unlink may fall between any two of the steps.

As long as the path names the opened file at the resolutions, and a captured rename finds
what it needs, these runs are runs of the coarser machine, whose source files have current
names.
-/

namespace TokuBackup.Lifecycle.OpenRace

open Kernel Table Lib

structure State where
  base : Lifecycle.State
  /-- The result of `realpath` in `setup_description_and_source_file`, until the source file
  is taken from the table. -/
  resolved : Nat → Option Path
  /-- The fd whose `capture_open` is between `is_prefix` and `translate_prefix`, inside the
  session and under the mutex of the table. -/
  capturing : Option Nat
  /-- `translate_prefix_of_realpath` has got a null path. -/
  nullPath : Bool
  /-- `open`, `unlink` or `rename` has reported an error although every system call of the
  step succeeded. -/
  unprovoked : Bool

inductive Action where
  /-- `realpath` in `setup_description_and_source_file`. -/
  | resolve (fd : Nat)
  /-- `open` enters the session, and `is_prefix` resolves the path. -/
  | isPrefix (fd : Nat)
  /-- A step of the coarser machine. Attaching uses the resolved path; the capture of an
  `open` begins with `translate_prefix`. -/
  | base (a : Lifecycle.Action)

section

variable (hash : Path → Nat)

/-- The error that a section returns with its files. -/
def errorOf (x : Except Fault (Files × Bool)) : Bool :=
  match x with
  | .ok (_, error) => error
  | .error _ => false

/-- The step reports an error. -/
def reports (s : Lifecycle.State) : Lifecycle.Action → Bool
  | .openCapture fd opened created =>
    match s.fds fd, s.session with
    | some ⟨path, _, .published source⟩, some D =>
      errorOf (captureOpen s D path source opened created)
    | _, _ => false
  | .unlinkFinish created unlinked =>
    match s.fileOp with
    | .unlinkHeld path source => errorOf (unlinkSection hash s path source created unlinked)
    | _ => false
  | .renameCapture created renamed enoent =>
    match s.fileOp, s.session with
    | .renamed old_path new_path, some D =>
      errorOf (captureRename hash s.files D old_path new_path
        ⟨created, if s.names new_path = none then none else some new_path, renamed, enoent⟩)
    | _, _ => false
  | _ => false

/-- Every system call of the step succeeds. -/
def succeeds : Lifecycle.Action → Bool
  | .openCapture _ opened created => opened && created
  | .unlinkFinish created unlinked => created && unlinked
  | .renameCapture created renamed _ => created && renamed
  | _ => true

/-- The step takes the mutex of the table, or the session lock for writing. -/
def excluded (s : Lifecycle.State) : Lifecycle.Action → Bool
  | .closeUnhook _ | .closeRelease _ | .unlinkHold | .unlinkFinish _ _ => true
  | .copierStart _ _ | .copierCreate _ | .copierUnhook | .copierRelease => true
  | .startSession _ | .prepareNext _ _ | .endSession | .disableNext => true
  | .renameCapture _ _ _ =>
    match s.fileOp, s.session with
    | .renamed old_path new_path, some D =>
      D.isPrefixOfRealpath old_path && D.isPrefixOfRealpath new_path
    | _, _ => false
  | _ => false

/-- A step of the coarser machine, with a note of the error that it reports. -/
def delegate (s : State) (a : Lifecycle.Action) : Option State :=
  (Lifecycle.step hash s.base a).map fun base =>
    { s with base, unprovoked := s.unprovoked || (succeeds a && reports hash s.base a) }

def step (s : State) (a : Action) : Option State :=
  if s.base.fault.isSome ∨ s.nullPath then none
  else
    match a with
    | .resolve fd =>
      match s.base.fds fd with
      | some d =>
        if d.stage = .opened ∧ s.resolved fd = none then
          -- `realpath` fails: the error is reported and the fd stays untracked
          if s.base.names d.path = none then
            (delegate hash s (.openAttach fd)).map fun s => { s with unprovoked := true }
          else some { s with resolved := Function.update s.resolved fd (some d.path) }
        else none
      | none => none
    | .isPrefix fd =>
      match s.base.fds fd, s.base.session with
      | some ⟨path, _, .published _⟩, some D =>
        if s.capturing.isSome ∨ s.base.backup.exclusive then none
        -- nothing to capture: `open` is done
        else if s.base.names path = none ∨ ¬ D.isPrefixOfRealpath path then
          delegate hash s (.openCapture fd true true)
        else some { s with capturing := some fd }
      | _, _ => none
    | .base (.openAttach fd) =>
      match s.base.fds fd, s.resolved fd with
      | some d, some full_source_file_path =>
        if s.capturing.isSome then none
        else
          some { s with
            base := s.base.attempt (s.base.files.getOrCreate hash full_source_file_path)
              fun (source, files) => ({ s.base with files }).moveFd fd d (.attached source)
            resolved := Function.update s.resolved fd none }
      | _, _ => none
    | .base (.openCapture fd opened created) =>
      if s.base.session = none then delegate hash s (.openCapture fd opened created)
      else if s.capturing = some fd then
        match s.base.fds fd with
        | some d =>
          if s.base.names d.path = none then some { s with nullPath := true }
          else
            (delegate hash s (.openCapture fd opened created)).map fun s =>
              { s with capturing := none }
        | none => none
      else none
    | .base a =>
      if s.capturing.isSome ∧ excluded s.base a then none else delegate hash s a

end

/-- When an `open` without `O_CREAT` resolves its path, the path names some file; when it
takes the source file, the path names the opened file. An `open` with `O_CREAT` keeps others
from changing that. -/
def Resolves (s : State) : Action → Prop
  | .resolve fd =>
    ∀ d ∈ s.base.fds fd, s.base.fileOp ≠ .creating fd → s.base.names d.path ≠ none
  | .base (.openAttach fd) =>
    ∀ d ∈ s.base.fds fd, s.base.fileOp ≠ .creating fd → s.base.names d.path = some d.inode
  | .base (.openCapture fd _ _) =>
    s.capturing = some fd → ∀ d ∈ s.base.fds fd, s.base.fileOp ≠ .creating fd →
      s.base.names d.path ≠ none
  | _ => True

/-- The resolutions of `open` succeed; and a rename of a file with a tracked fd is captured,
and the capture finds what it needs. -/
def OpenOk (hash : Path → Nat) (s : State) (a : Action) : Prop :=
  Resolves s a ∧ ∀ created renamed enoent, a = .base (.renameCapture created renamed enoent) →
    NamesFit hash s.base (.renameCapture created renamed enoent)

/-- Nothing is tracked and nothing is in flight. -/
structure Initial (s : State) : Prop where
  base : Lifecycle.Initial s.base
  resolved : ∀ fd, s.resolved fd = none
  capturing : s.capturing = none
  nullPath : s.nullPath = false
  unprovoked : s.unprovoked = false

section

variable {hash : Path → Nat} {s s' s₀ : State} {b b' : Lifecycle.State} {a : Lifecycle.Action}

/-! ## Errors -/

theorem tryToCreate_created {F F' : Files} {p : Ptr} {path : Path} {ok : Bool}
    (h : F.tryToCreateDestinationFile p path true = .ok (ok, F')) : ok = true := by
  obtain ⟨f, -, h⟩ := bind_eq_ok.mp h
  split_ifs at h
  · cases h
    rfl
  · cases h
    rfl
  · cases h
    rfl
  · rename_i hno
    exact absurd rfl hno

theorem errorOf_captureOpen {D : DirectorySet} {path : Path} {source : Ptr} :
    errorOf (captureOpen b D path source true true) = false := by
  rw [captureOpen]
  split
  · rfl
  · split
    · rfl
    · cases hdest : D.translatePrefixOfRealpath path with
      | none => rfl
      | some dest =>
        simp only [demand_some, ok_bind]
        split
        · rfl
        · rw [if_neg (by simp)]
          cases hrun : b.files.tryToCreateDestinationFile source dest true with
          | error e => rfl
          | ok r =>
            obtain ⟨ok, F'⟩ := r
            rw [tryToCreate_created hrun]
            rfl

theorem errorOf_unlinkSection {path : Path} {source : Ptr} {created : Bool} :
    errorOf (unlinkSection hash b path source created true) = false := by
  cases hrun : unlinkSection hash b path source created true with
  | error e => rfl
  | ok r =>
    rw [unlinkSection] at hrun
    split at hrun
    · obtain ⟨⟨ok, F⟩, -, hrun⟩ := bind_eq_ok.mp hrun
      dsimp only at hrun
      split at hrun
      · obtain ⟨F', -, hrun⟩ := bind_eq_ok.mp hrun
        cases hrun
        rfl
      · cases hrun
        rfl
    · obtain ⟨F', -, hrun⟩ := bind_eq_ok.mp hrun
      cases hrun
      rfl

theorem rename_renamed {F F' : Files} {target : Ptr} {dest : Path} {o : RenameOutcome} {ok : Bool}
    (h : F.rename hash target dest o = .ok (ok, F')) (hreal : o.realpath ≠ none)
    (hren : o.renamed = true) : ok = true := by
  obtain ⟨F₁, -, h⟩ := bind_eq_ok.mp h
  dsimp only at h
  rw [if_neg hreal] at h
  obtain ⟨f, -, h⟩ := bind_eq_ok.mp h
  obtain ⟨d, -, h⟩ := bind_eq_ok.mp h
  rw [if_pos hren] at h
  obtain ⟨F₂, -, h⟩ := bind_eq_ok.mp h
  cases h
  rfl

theorem errorOf_captureRename {F : Files} {D : DirectorySet} {old_path new_path : Path}
    {o : RenameOutcome} (hcreate : o.created = true) (hren : o.renamed = true) :
    errorOf (captureRename hash F D old_path new_path o) = false := by
  cases hrun : captureRename hash F D old_path new_path o with
  | error e => rfl
  | ok r =>
    rw [captureRename] at hrun
    split at hrun
    · cases hrun
      rfl
    · rename_i hreal
      split at hrun
      · obtain ⟨old_dest, -, hrun⟩ := bind_eq_ok.mp hrun
        obtain ⟨new_dest, -, hrun⟩ := bind_eq_ok.mp hrun
        obtain ⟨⟨ok, F'⟩, hlocked, hrun⟩ := bind_eq_ok.mp hrun
        obtain ⟨⟨target, F₁⟩, -, hlocked⟩ := bind_eq_ok.mp hlocked
        obtain ⟨⟨created, F₂⟩, hmade, hlocked⟩ := bind_eq_ok.mp hlocked
        rw [hcreate] at hmade
        dsimp only at hlocked
        rw [if_pos (tryToCreate_created hmade)] at hlocked
        obtain ⟨⟨renamed, F₃⟩, hrename, hlocked⟩ := bind_eq_ok.mp hlocked
        obtain ⟨F₄, -, hlocked⟩ := bind_eq_ok.mp hlocked
        cases hlocked
        cases hrun
        have hok : renamed = true := rename_renamed hrename hreal hren
        rw [hok]
        rfl
      · cases hrun
        rfl

/-- A step whose system calls succeed reports no error. -/
theorem reports_of_succeeds (h : succeeds a = true) : reports hash b a = false := by
  cases a with
  | openCapture fd opened created =>
    obtain ⟨rfl, rfl⟩ := Bool.and_eq_true_iff.mp h
    simp only [reports]
    split
    · exact errorOf_captureOpen
    · rfl
  | unlinkFinish created unlinked =>
    obtain ⟨-, rfl⟩ := Bool.and_eq_true_iff.mp h
    simp only [reports]
    split
    · exact errorOf_unlinkSection
    · rfl
  | renameCapture created renamed enoent =>
    obtain ⟨rfl, rfl⟩ := Bool.and_eq_true_iff.mp h
    simp only [reports]
    split
    · exact errorOf_captureRename rfl rfl
    · rfl
  | _ => rfl

theorem delegate_eq (h : delegate hash s a = some s') :
    Lifecycle.step hash s.base a = some s'.base ∧ s'.resolved = s.resolved ∧
      s'.capturing = s.capturing ∧ s'.nullPath = s.nullPath ∧ s'.unprovoked = s.unprovoked := by
  obtain ⟨base, hbase, rfl⟩ := Option.map_eq_some_iff.mp h
  refine ⟨hbase, rfl, rfl, rfl, ?_⟩
  show (s.unprovoked || (succeeds a && reports hash s.base a)) = s.unprovoked
  cases hsucceeds : succeeds a with
  | false => simp
  | true => simp [reports_of_succeeds hsucceeds]

/-! ## `open` with `O_CREAT` -/

/-- While an `open` with `O_CREAT` is in flight, its path names its file. -/
def Creating (b : Lifecycle.State) : Prop :=
  ∀ fd d, b.fds fd = some d → b.fileOp = .creating fd → b.names d.path = some d.inode

theorem Creating.same (h : Creating b) (hnames : b'.names = b.names)
    (hop : ∀ fd, b'.fileOp = .creating fd → b.fileOp = .creating fd)
    (hfds : ∀ fd d', b'.fileOp = .creating fd → b'.fds fd = some d' →
      ∃ d, b.fds fd = some d ∧ d'.path = d.path ∧ d'.inode = d.inode) : Creating b' := by
  intro fd d' hd' hop'
  obtain ⟨d, hd, hpath, hinode⟩ := hfds fd d' hop' hd'
  rw [hnames, hpath, hinode]
  exact h fd d hd (hop fd hop')

theorem unlock_creating {op : FileOp} {fd fd' : Nat} (h : op.unlock fd = .creating fd') :
    op = .creating fd' := by
  rw [FileOp.unlock] at h
  split at h
  · cases h
  · exact h

theorem creating_opens (h : Creating b) (hopen : Opens hash b a b') : Creating b' := by
  cases hopen with
  | failed hnames hfds =>
    refine h.same hnames.names (fun fd hop => hnames.fileOp ▸ hop) fun fd d' _ hd' => ?_
    rw [hfds] at hd'
    exact ⟨d', hd', rfl, rfl⟩
  | found fd path i _ hi hfds hnames _ hop =>
    intro fd' d' hd' hop'
    rw [hnames]
    by_cases hfd' : fd' = fd
    · rw [hfd', hfds, Function.update_self] at hd'
      cases hd'
      exact hi
    · obtain hop | ⟨-, hop⟩ := hop
      · rw [hop] at hop'
        rw [hfds, Function.update_of_ne hfd'] at hd'
        exact h fd' d' hd' hop'
      · rw [hop] at hop'
        cases hop'
        exact absurd rfl hfd'
  | new fd path _ _ _ hfds hnames _ hop =>
    intro fd' d' hd' hop'
    rw [hop] at hop'
    cases hop'
    rw [hfds, Function.update_self] at hd'
    cases hd'
    rw [hnames, Function.update_self]
  | untracked fd d _ _ hfds hnames _ hop =>
    refine h.same hnames (fun fd' hop' => unlock_creating (hop ▸ hop')) fun fd' d' _ hd' => ?_
    exact ⟨d', fd_of_erase hfds hd', rfl, rfl⟩
  | attached fd d p _ hd _ _ _ hfds hnames =>
    exact h.same hnames.names (fun fd' hop => hnames.fileOp ▸ hop) fun _ _ _ => fd_of_move hd hfds
  | moved fd d stage hd _ hfds hnames _ hop =>
    refine h.same hnames (fun fd' hop' => ?_) fun _ _ _ => fd_of_move hd hfds
    obtain hop | hop := hop
    · exact hop ▸ hop'
    · exact unlock_creating (hop ▸ hop')

/-- `unlink` and `rename` leave the mutex free, or hold it themselves. -/
theorem creating_operates (h : Creating b) (hop : Operates hash b a b') (hfds : b'.fds = b.fds) :
    Creating b' := by
  have hother : (∀ fd, b'.fileOp ≠ .creating fd) → Creating b' := by
    intro hne fd d _ hop
    exact absurd hop (hne fd)
  cases hop with
  | failed hnames _ =>
    refine h.same hnames.names (fun fd hop => hnames.fileOp ▸ hop) fun fd d' _ hd' => ?_
    rw [hfds] at hd'
    exact ⟨d', hd', rfl, rfl⟩
  | unlinkStart path _ hop' _ => exact hother (by simp [hop'])
  | aborted _ hop' _ => exact hother (by simp [hop'])
  | unlinked path _ hop' _ => exact hother (by simp [hop'])
  | held path p _ hop' _ _ => exact hother (by simp [hop'])
  | finished path p _ _ hop' _ => exact hother (by simp [hop'])
  | renameStart old_path new_path _ _ _ hop' _ => exact hother (by simp [hop'])
  | renamed old_path new_path _ _ hop' _ => exact hother (by simp [hop'])
  | captured old_path new_path _ _ _ _ _ hop' _ _ => exact hother (by simp [hop'])

theorem creating_step (h : Creating b) (hstep : Lifecycle.step hash b a = some b') :
    Creating b' := by
  have hsame : SameNames b b' → b'.fds = b.fds → Creating b' := by
    intro hnames hfds
    refine h.same hnames.names (fun fd hop => hnames.fileOp ▸ hop) fun fd d' _ hd' => ?_
    rw [hfds] at hd'
    exact ⟨d', hd', rfl, rfl⟩
  obtain ⟨-, hopen | hclose | hop | hthread | hback⟩ := step_cases hstep
  · exact creating_opens h (stepOpen_opens hopen)
  · obtain ⟨hnames, hcloses, -⟩ := stepClose_frame hclose
    refine h.same hnames.names (fun fd hop => hnames.fileOp ▸ hop) fun fd d' _ hd' => ?_
    obtain ⟨d, hd, hpath, hinode, -⟩ := hcloses fd d' hd'
    exact ⟨d, hd, hpath, hinode⟩
  · exact creating_operates h (stepFileOp_operates hop) (stepFileOp_frame hop).1
  · obtain ⟨hnames, hfds, -⟩ := stepThread_frame hthread
    exact hsame hnames hfds
  · obtain ⟨hnames, hfds, -⟩ := stepBackup_frame hback
    exact hsame hnames hfds

/-! ## The runs are runs of the coarser machine -/

structure Inv (s : State) : Prop where
  space : Namespace s.base
  creating : Creating s.base
  resolved : ∀ fd full_path, s.resolved fd = some full_path →
    ∃ d, s.base.fds fd = some d ∧ d.stage = .opened ∧ full_path = d.path
  nullPath : s.nullPath = false
  unprovoked : s.unprovoked = false

theorem inv_initial (h : Initial s) : Inv s := by
  refine ⟨namespace_initial h.base, fun fd d hd => ?_, fun fd full_path hfull => ?_, h.nullPath,
    h.unprovoked⟩
  · rw [h.base.fds] at hd
    cases hd
  · rw [h.resolved] at hfull
    cases hfull

/-- A path that names some file, as long as its `open` does not hold the mutex, names one. -/
theorem Inv.found (h : Inv s) {fd : Nat} {d : Fd} (hd : s.base.fds fd = some d)
    (hok : s.base.fileOp ≠ .creating fd → s.base.names d.path ≠ none) :
    s.base.names d.path ≠ none := by
  by_cases hop : s.base.fileOp = .creating fd
  · rw [h.creating fd d hd hop]
    simp
  · exact hok hop

/-- A step that leaves the fds before `get_or_create_locked` alone keeps what they resolved. -/
theorem opened_kept (hstep : Lifecycle.step hash b a = some b') (ha : ∀ fd, a ≠ .openAttach fd)
    {fd : Nat} {d : Fd} (hd : b.fds fd = some d) (hopened : d.stage = .opened) :
    b'.fds fd = some d := by
  obtain ⟨-, hopen | hclose | hop | hthread | hback⟩ := step_cases hstep
  · exact stepOpen_opened hopen ha hd hopened
  · obtain hfds | ⟨fd', d', o, hd', hne, -, -, hfds⟩ := stepClose_moves hclose
    · rw [hfds, hd]
    · rw [hfds, Function.update_of_ne, hd]
      intro hfd
      rw [← hfd, hd] at hd'
      cases hd'
      exact hne hopened
  · rw [(stepFileOp_frame hop).1, hd]
  · rw [(stepThread_frame hthread).2.1, hd]
  · rw [(stepBackup_frame hback).2.1, hd]

theorem Inv.delegate (h : Inv s) (hdelegate : delegate hash s a = some s')
    (ha : ∀ fd, a ≠ .openAttach fd) : Inv s' := by
  obtain ⟨hstep, hresolved, -, hnull, hunprovoked⟩ := delegate_eq hdelegate
  refine ⟨namespace_step h.space hstep, creating_step h.creating hstep,
    fun fd full_path hfull => ?_, hnull.trans h.nullPath, hunprovoked.trans h.unprovoked⟩
  rw [hresolved] at hfull
  obtain ⟨d, hd, hopened, hpath⟩ := h.resolved fd full_path hfull
  exact ⟨d, opened_kept hstep ha hd hopened, hopened, hpath⟩

/-- Steps that neither attach a source file nor capture a rename. -/
theorem namesFit_of_ne (hattach : ∀ fd, a ≠ .openAttach fd)
    (hrename : ∀ created renamed enoent, a ≠ .renameCapture created renamed enoent) :
    NamesFit hash b a := by
  cases a with
  | openAttach fd => exact absurd rfl (hattach fd)
  | renameCapture created renamed enoent => exact absurd rfl (hrename created renamed enoent)
  | _ => exact ⟨trivial, trivial⟩

/-- Taking the source file of a path that names the opened file is the coarser step. -/
theorem openAttach_step {fd : Nat} {d : Fd} (hfault : b.fault = none) (hd : b.fds fd = some d)
    (hopened : d.stage = .opened) (hname : b.names d.path ≠ none) :
    Lifecycle.step hash b (.openAttach fd) =
      some (b.attempt (b.files.getOrCreate hash d.path) fun (source, files) =>
        ({ b with files }).moveFd fd d (.attached source)) := by
  simp only [Lifecycle.step, hfault, Option.isSome_none, Bool.false_eq_true, if_false,
    stepOpen, hd, hopened, if_true, if_neg hname]

theorem attach_fds_ne {x : Except Fault (Ptr × Files)} {fd fd' : Nat} {d : Fd} (hne : fd' ≠ fd) :
    (b.attempt x fun (source, files) =>
      ({ b with files }).moveFd fd d (.attached source)).fds fd' = b.fds fd' := by
  cases x with
  | error e => rfl
  | ok r => exact Function.update_of_ne hne _ _

/-- `realpath` succeeds. -/
theorem Inv.resolve (h : Inv s) {fd : Nat} {d : Fd} (hd : s.base.fds fd = some d)
    (hopened : d.stage = .opened) :
    Inv { s with resolved := Function.update s.resolved fd (some d.path) } := by
  refine ⟨h.space, h.creating, fun fd' full_path hfull => ?_, h.nullPath, h.unprovoked⟩
  change Function.update s.resolved fd (some d.path) fd' = some full_path at hfull
  rw [Function.update_apply] at hfull
  split at hfull
  · rename_i hfd
    cases hfull
    exact ⟨d, by rw [hfd]; exact hd, hopened, rfl⟩
  · exact h.resolved fd' full_path hfull

theorem Inv.attach (h : Inv s) {fd : Nat} {d : Fd} {x : Except Fault (Ptr × Files)}
    (hlife : Lifecycle.step hash s.base (.openAttach fd) =
      some (s.base.attempt x fun (source, files) =>
        ({ s.base with files }).moveFd fd d (.attached source))) :
    Inv { s with
      base := s.base.attempt x fun (source, files) =>
        ({ s.base with files }).moveFd fd d (.attached source)
      resolved := Function.update s.resolved fd none } := by
  refine ⟨namespace_step h.space hlife, creating_step h.creating hlife,
    fun fd' full_path hfull => ?_, h.nullPath, h.unprovoked⟩
  change Function.update s.resolved fd none fd' = some full_path at hfull
  rw [Function.update_apply] at hfull
  split at hfull
  · cases hfull
  · rename_i hne
    obtain ⟨d', hd', hopened', hpath⟩ := h.resolved fd' full_path hfull
    exact ⟨d', (attach_fds_ne hne).trans hd', hopened', hpath⟩

theorem project_step {a : Action} (h : Inv s) (hok : OpenOk hash s a)
    (hstep : step hash s a = some s') :
    Inv s' ∧ (s'.base = s.base ∨
      ∃ b, NamesFit hash s.base b ∧ Lifecycle.step hash s.base b = some s'.base) := by
  -- a step of the coarser machine that needs nothing of the names
  have hplain : ∀ b, delegate hash s b = some s' → (∀ fd, b ≠ .openAttach fd) →
      NamesFit hash s.base b → Inv s' ∧ (s'.base = s.base ∨
        ∃ b, NamesFit hash s.base b ∧ Lifecycle.step hash s.base b = some s'.base) := by
    intro b hdelegate hne hfit
    exact ⟨h.delegate hdelegate hne, Or.inr ⟨b, hfit, (delegate_eq hdelegate).1⟩⟩
  unfold step at hstep
  split at hstep
  · cases hstep
  · rename_i halive
    have hfault : s.base.fault = none := by
      by_contra hfault
      exact halive (Or.inl (Option.isSome_iff_ne_none.mpr hfault))
    cases a with
    | resolve fd =>
      dsimp only at hstep
      split at hstep
      · rename_i d hd
        split at hstep
        · rename_i hopened
          rw [if_neg (h.found hd (hok.1 d hd))] at hstep
          cases hstep
          exact ⟨h.resolve hd hopened.1, Or.inl rfl⟩
        · cases hstep
      · cases hstep
    | isPrefix fd =>
      dsimp only at hstep
      split at hstep
      · split at hstep
        · cases hstep
        · split at hstep
          · exact hplain _ hstep (by simp) (namesFit_of_ne (by simp) (by simp))
          · cases hstep
            exact ⟨⟨h.space, h.creating, h.resolved, h.nullPath, h.unprovoked⟩, Or.inl rfl⟩
      · cases hstep
    | base a =>
      cases a with
      | openAttach fd =>
        dsimp only at hstep
        split at hstep
        · rename_i d full_path hd hfull
          split at hstep
          · cases hstep
          · cases hstep
            obtain ⟨d', hd', hopened, rfl⟩ := h.resolved fd full_path hfull
            cases hd.symm.trans hd'
            have hname : s.base.names d.path = some d.inode := by
              by_cases hop : s.base.fileOp = .creating fd
              · exact h.creating fd d hd hop
              · exact hok.1 d hd hop
            have hlife := @openAttach_step hash _ _ _ hfault hd hopened (by rw [hname]; simp)
            refine ⟨h.attach hlife, Or.inr ⟨.openAttach fd, ⟨trivial, fun d' hd' _ => ?_⟩, hlife⟩⟩
            cases hd.symm.trans hd'
            exact Or.inr fun q hq => h.space.inj q d.path d.inode hq hname
        · cases hstep
      | openCapture fd opened created =>
        dsimp only at hstep
        split at hstep
        · exact hplain _ hstep (by simp) (namesFit_of_ne (by simp) (by simp))
        · split at hstep
          · rename_i hcapturing
            split at hstep
            · rename_i d hd
              rw [if_neg (h.found hd (hok.1 hcapturing d hd))] at hstep
              obtain ⟨s₁, hdelegate, rfl⟩ := Option.map_eq_some_iff.mp hstep
              obtain ⟨space, creating, resolved, nullPath, unprovoked⟩ :=
                h.delegate hdelegate (by simp)
              exact ⟨⟨space, creating, resolved, nullPath, unprovoked⟩,
                Or.inr ⟨_, namesFit_of_ne (by simp) (by simp), (delegate_eq hdelegate).1⟩⟩
            · cases hstep
          · cases hstep
      | renameCapture created renamed enoent =>
        dsimp only at hstep
        split at hstep
        · cases hstep
        · exact hplain _ hstep (by simp) (hok.2 created renamed enoent rfl)
      | _ =>
        dsimp only at hstep
        split at hstep
        · cases hstep
        · exact hplain _ hstep (by simp) (namesFit_of_ne (by simp) (by simp))

/-! ## The main result -/

/-- In every run whose steps meet the condition no null path is translated, no error is
reported by a step whose system calls succeed, and while no rename waits for its section the
source file of each tracked fd has the name of the fd's file, if the file has one, and the
table finds it there. -/
theorem open_consistent (hash : Path → Nat) (hinit : Initial s₀) {as : List Action}
    (hok : RunOk (step hash) (OpenOk hash) s₀ as) (hrun : run (step hash) s₀ as = some s) :
    s.nullPath = false ∧ s.unprovoked = false ∧
    ((∀ old_path new_path, s.base.fileOp ≠ .renamed old_path new_path) →
      ∀ fd d p q, s.base.fds fd = some d → d.stage.source = some p →
        s.base.names q = some d.inode →
        s.base.files.name p = some q ∧ s.base.files.get hash q = .ok (some p)) := by
  obtain ⟨hinv, bs, hbs, hbase⟩ :=
    run_project (fun s a s' h hok hstep => project_step h hok hstep) (inv_initial hinit) hok hrun
  obtain ⟨hb, -, -, hcurrent, -⟩ := current_run hinit.base hbs hbase
  refine ⟨hinv.nullPath, hinv.unprovoked, fun hop fd d p q hd hp hq => ?_⟩
  have hname : s.base.files.name p = some q := by
    obtain hname | ⟨old_path, hrenamed, -⟩ := hcurrent.named fd d p q hd hp hq
    · exact hname
    · exact absurd hrenamed (hop old_path q)
  have hlive : s.base.files.heap p ≠ none := hb.held (.fd fd) p (by rw [heldBy_fd hd, hp])
  exact ⟨hname, hb.rep.get_some ((hb.mem p).mpr hlive) hname⟩

end

/-! ## Runs -/

/-- A rename that is still to be captured is captured in the session. -/
def CapturedIn : FileOp → Option DirectorySet → Prop
  | .renamed old_path new_path, some D =>
    D.isPrefixOfRealpath old_path = true ∧ D.isPrefixOfRealpath new_path = true
  | .renamed _ _, none => False
  | _, _ => True

instance decidableCapturedIn :
    ∀ (op : FileOp) (session : Option DirectorySet), Decidable (CapturedIn op session)
  | .renamed old_path new_path, some D => inferInstanceAs (Decidable
      (D.isPrefixOfRealpath old_path = true ∧ D.isPrefixOfRealpath new_path = true))
  | .renamed _ _, none => isFalse id
  | .free, _ | .creating _, _ | .unlinking _, _ | .unlinked _, _ | .unlinkHeld _ _, _
  | .renaming _ _, _ => isTrue trivial

/-- A condition on renames that can be computed. -/
def Captured (hash : Path → Nat) (s : State) : Action → Prop
  | .base (.renameCapture created renamed enoent) =>
    RenameOk hash s.base (.renameCapture created renamed enoent) ∧
      CapturedIn s.base.fileOp s.base.session
  | _ => True

theorem namesFit_of_captured {hash : Path → Nat} {s : State} {created renamed enoent : Bool}
    (h : Captured hash s (.base (.renameCapture created renamed enoent))) :
    NamesFit hash s.base (.renameCapture created renamed enoent) := by
  obtain ⟨hrename, hin⟩ := h
  refine ⟨hrename.fits, ?_⟩
  intro old_path new_path hop _ _
  rw [hop] at hin
  cases hsession : s.base.session with
  | none =>
    rw [hsession] at hin
    exact hin.elim
  | some D =>
    rw [hsession] at hin
    exact ⟨D, hsession, hin⟩

theorem openOk_of_captured {hash : Path → Nat} {s : State} {a : Action}
    (h : Resolves s a ∧ Captured hash s a) : OpenOk hash s a := by
  refine ⟨h.1, ?_⟩
  rintro created renamed enoent rfl
  exact namesFit_of_captured h.2

instance decidableResolves (s : State) (a : Action) : Decidable (Resolves s a) := by
  apply @Action.casesOn (fun a => Decidable (Resolves s a)) a
  case resolve =>
    intro fd
    unfold Resolves
    infer_instance
  case isPrefix => exact fun fd => isTrue trivial
  case base =>
    intro a
    apply @Lifecycle.Action.casesOn (fun a => Decidable (Resolves s (.base a))) a
    case openAttach =>
      intro fd
      unfold Resolves
      infer_instance
    case openCapture =>
      intro fd opened created
      unfold Resolves
      infer_instance
    all_goals
      intros
      exact isTrue trivial

instance decidableCaptured (hash : Path → Nat) (s : State) (a : Action) :
    Decidable (Captured hash s a) := by
  apply @Action.casesOn (fun a => Decidable (Captured hash s a)) a
  case base =>
    intro a
    apply @Lifecycle.Action.casesOn (fun a => Decidable (Captured hash s (.base a))) a
    case renameCapture =>
      intro created renamed enoent
      unfold Captured
      infer_instance
    all_goals
      intros
      exact isTrue trivial
  all_goals
    intros
    exact isTrue trivial

/-- The file `/s/a`, and nothing tracked. -/
def start : State := ⟨Lifecycle.start true, fun _ => none, none, false, false⟩

theorem initial_start : Initial start :=
  ⟨Lifecycle.initial_start true, fun _ => rfl, rfl, rfl, rfl⟩

/-- Two opens in a session, one of them with `O_CREAT`, whose file is renamed before the other
has translated its path. -/
def renamedAmongOpens : List Action :=
  [.base (.startSession slashS), .base (.prepareNext true true),
    .base (.openReal 1 ['/', 's', '/', 'a'] false), .base (.openReal 0 ['/', 's', '/', 'b'] true),
    .resolve 1, .resolve 0, .base (.openAttach 0), .base (.openAttach 1), .base (.openPublish 0),
    .base (.openPublish 1), .isPrefix 0, .base (.openCapture 0 true true),
    .base (.renameStart ['/', 's', '/', 'b'] ['/', 's', '/', 'c']), .isPrefix 1,
    .base (.renameReal true), .base (.openCapture 1 true true),
    .base (.renameCapture true true false)]

theorem open_consistent_renamedAmongOpens :
    ∃ s, run (step List.length) start renamedAmongOpens = some s ∧
      s.nullPath = false ∧ s.unprovoked = false ∧
      ∃ d p, s.base.fds 0 = some d ∧ d.stage = .usable p ∧
        s.base.files.name p = some ['/', 's', '/', 'c'] ∧
        s.base.files.get List.length ['/', 's', '/', 'c'] = .ok (some p) := by
  have hcaptured : RunOk (step List.length)
      (fun s a => Resolves s a ∧ Captured List.length s a) start renamedAmongOpens := by
    decide +kernel
  have hok : RunOk (step List.length) (OpenOk List.length) start renamedAmongOpens :=
    hcaptured.imp fun _ _ => openOk_of_captured
  have hrun : ∃ s d, run (step List.length) start renamedAmongOpens = some s ∧
      s.base.fds 0 = some d ∧ d.stage = .usable 0 ∧ s.base.fileOp = .free ∧
      s.base.names ['/', 's', '/', 'c'] = some d.inode :=
    ⟨_, _, rfl, rfl, rfl, rfl, rfl⟩
  obtain ⟨s, d, hrun, hd, hstage, hop, hname⟩ := hrun
  obtain ⟨hnull, hunprovoked, hcurrent⟩ := open_consistent List.length initial_start hok hrun
  obtain ⟨hnamed, hget⟩ := hcurrent (by simp [hop]) 0 d 0 ['/', 's', '/', 'c'] hd
    (by rw [hstage]; rfl) hname
  exact ⟨s, hrun, hnull, hunprovoked, d, 0, hd, hstage, hnamed, hget⟩

/-- The file is unlinked after `is_prefix` has found it. -/
def unlinkedBetweenResolutions : List Action :=
  [.base (.startSession slashS), .base (.prepareNext true true),
    .base (.openReal 0 ['/', 's', '/', 'a'] false), .resolve 0, .base (.openAttach 0),
    .base (.openPublish 0), .isPrefix 0, .base (.unlinkStart ['/', 's', '/', 'a']),
    .base (.unlinkReal true), .base (.openCapture 0 true true)]

/-- `translate_prefix` passes a null path on. -/
theorem not_open_consistent_unlinkedBetweenResolutions :
    ¬ ∀ hash s₀ as s, Initial s₀ → run (step hash) s₀ as = some s →
      s.nullPath = false ∧ s.unprovoked = false ∧
      (Quiet s.base → ∀ fd d p q, s.base.fds fd = some d → d.stage = .usable p →
        s.base.names q = some d.inode →
        s.base.files.name p = some q ∧ s.base.files.get hash q = .ok (some p)) := by
  intro h
  have hrun : ∃ s, run (step List.length) start unlinkedBetweenResolutions = some s ∧
      s.nullPath = true := ⟨_, rfl, rfl⟩
  obtain ⟨s, hrun, hnull⟩ := hrun
  obtain ⟨hfine, -⟩ := h _ _ _ s initial_start hrun
  rw [hnull] at hfine
  cases hfine

end TokuBackup.Lifecycle.OpenRace
