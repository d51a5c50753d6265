import TokuBackup.Lifecycle.Names
import TokuBackup.Lifecycle.Sessions

/-!
# Current names

A source file learns the new name of its file from `capture_rename` only: in a session, and
when both names are in the source directories. When no other rename reaches the file of an
fd, the fd's source file has the name of its file, and the table finds it there.
-/

namespace TokuBackup.Lifecycle

open Kernel Table Lib

/-- The rename whose section is next is captured. -/
def State.Captures (s : State) (old_path new_path : Path) : Prop :=
  ∃ D, s.session = some D ∧ D.isPrefixOfRealpath old_path = true ∧
    D.isPrefixOfRealpath new_path = true

/-- The step is the section of a rename. -/
def State.AtRename (s : State) (a : Action) : Prop :=
  (∃ created renamed enoent, a = .renameCapture created renamed enoent) ∧
    ∃ old_path new_path, s.fileOp = .renamed old_path new_path

/-- A rename of a file that a tracked fd refers to is captured, and the capture finds what it
needs; and `open` finds its file at the path by which it has opened it, if the file has a
name. -/
def NamesFit (hash : Path → Nat) (s : State) (a : Action) : Prop :=
  RenameFits hash s a ∧
    match a with
    | .renameCapture _ _ _ =>
      ∀ old_path new_path, s.fileOp = .renamed old_path new_path → new_path ≠ old_path →
        (∃ fd d, s.fds fd = some d ∧ d.stage.source ≠ none ∧ s.names new_path = some d.inode) →
        s.Captures old_path new_path
    | .openAttach fd =>
      ∀ d ∈ s.fds fd, d.stage = .opened → s.names d.path = none ∨
        ∀ q, s.names q = some d.inode → q = d.path
    | _ => True

section

variable {hash : Path → Nat} {exact : Prop} {s s' s₀ : State} {a : Action} {p : Ptr}
  {F F' : Files} {n m : Path}

/-! ## The captured rename -/

/-- `rename_locked` of a file of the table gives it the new name. -/
theorem renameLocked_name {old_dest dest : Path} {o : RenameOutcome} {b : Bool}
    (h : F.renameLocked hash n old_dest dest o = .ok (b, F')) (hget : F.get hash n = .ok (some p))
    (hcreate : F.dest p = none → o.created = true) (hreal : o.realpath = some m)
    (hlive : F'.heap p ≠ none) : F'.name p = some m := by
  obtain ⟨g, hg, -⟩ := live_of_name (Files.name_of_get hget)
  have hfound : F.getOrCreate hash n =
      .ok (p, F.set p (some { g with referenceCount := g.referenceCount + 1 })) := by
    rw [Files.getOrCreate, hget, ok_bind]
    show (Except.ok (p, F.addReference p) : Except Fault _) = _
    rw [Files.addReference, Files.modify_of_heap hg]
  obtain ⟨⟨target, F₁⟩, hfirst, h⟩ := bind_eq_ok.mp h
  rw [hfound] at hfirst
  cases hfirst
  obtain ⟨⟨created, F₂⟩, hsecond, h⟩ := bind_eq_ok.mp h
  obtain ⟨g₁, hg₁, -, -, hcases⟩ := Files.tryToCreateDestinationFile_heap hsecond
  rw [Files.set_heap, Function.update_self] at hg₁
  cases hg₁
  have hcreated : created = true := by
    rcases hcases with ⟨-, -, hfail⟩ | ⟨hyes, -⟩
    · by_contra hno
      obtain ⟨hbad, hnone⟩ := hfail (by simpa using hno)
      rw [hcreate (by rw [Files.dest, hg]; exact hnone)] at hbad
      cases hbad
    · exact hyes
  subst hcreated
  simp only [if_true] at h
  obtain ⟨⟨renamed, F₃⟩, hrename, h⟩ := bind_eq_ok.mp h
  obtain ⟨F₄, hremove, h⟩ := bind_eq_ok.mp h
  cases h
  obtain ⟨-, -, -, g₂, -, -, hheap₃⟩ := Files.rename_heap hrename
  have hname₃ : F₃.name p = some m := by
    rw [Files.name_update hheap₃, if_pos rfl]
    exact hreal
  obtain ⟨-, -, g₃, hg₃, -, ⟨-, rfl⟩ | ⟨-, hheap⟩⟩ := Files.tryToRemove_heap hremove
  · rw [Files.name_set, if_pos rfl]
    rw [Files.name_of_heap hg₃] at hname₃
    exact hname₃
  · rw [hheap, Function.update_self] at hlive
    exact absurd rfl hlive

theorem captureRename_name {D : DirectorySet} {o : RenameOutcome} {r : Files × Bool}
    (h : captureRename hash F D n m o = .ok r) (hget : F.get hash n = .ok (some p))
    (hold : D.isPrefixOfRealpath n = true) (hnew : D.isPrefixOfRealpath m = true)
    (hcreate : F.dest p = none → o.created = true) (hreal : o.realpath = some m)
    (hlive : r.1.heap p ≠ none) : r.1.name p = some m := by
  rw [captureRename, if_neg (by rw [hreal]; simp), if_pos ⟨hold, hnew⟩] at h
  obtain ⟨old_dest, -, h⟩ := bind_eq_ok.mp h
  obtain ⟨new_dest, -, h⟩ := bind_eq_ok.mp h
  obtain ⟨⟨b, F'⟩, hrename, h⟩ := bind_eq_ok.mp h
  cases h
  exact renameLocked_name hrename hget hcreate hreal hlive

/-! ## The invariant -/

/-- The source file of a tracked fd has the name of the fd's file, or it has the old name of
a rename that is still to be captured; a file has no name that a rename took away. -/
structure Current (s : State) : Prop where
  named : ∀ fd d p q, s.fds fd = some d → d.stage.source = some p → s.names q = some d.inode →
    s.files.name p = some q ∨
      ∃ old_path, s.fileOp = .renamed old_path q ∧ s.files.name p = some old_path
  moved : ∀ old_path new_path, s.fileOp = .renamed old_path new_path → new_path ≠ old_path →
    s.names old_path = none

theorem current_initial (h : Initial s) : Current s := by
  refine ⟨fun fd d p q hd => ?_, fun old_path new_path hop => ?_⟩
  · rw [h.fds] at hd
    cases hd
  · rw [h.fileOp] at hop
    cases hop

/-- Away from a captured rename a source file that is still held keeps its name. -/
theorem name_kept (hb' : Base hash exact s') (heffect : Effect s a s'.files) (ha : ¬ s.AtRename a)
    (hn : s.files.name p = some n) {i : Holder} (hheld : s'.heldBy i = some p) :
    s'.files.name p = some n := by
  obtain hsame | ⟨new_path, hact, hop, -⟩ := heffect.name hn (hb'.held i p hheld)
  · exact hsame
  · exact absurd ⟨hact, n, new_path, hop⟩ ha

/-- A step that captures no rename, and in which files only lose names. -/
theorem Current.keep (h : Current s) (hb' : Base hash exact s') (heffect : Effect s a s'.files)
    (ha : ¬ s.AtRename a)
    (hfds : ∀ fd d' p, s'.fds fd = some d' → d'.stage.source = some p →
      ∃ d, s.fds fd = some d ∧ d'.inode = d.inode ∧ d.stage.source = some p)
    (hnames : ∀ fd d q, s.fds fd = some d → s'.names q = some d.inode → s.names q = some d.inode)
    (hop : ∀ old_path new_path, s.fileOp = .renamed old_path new_path → s'.fileOp = s.fileOp)
    (hmoved : ∀ old_path new_path, s'.fileOp = .renamed old_path new_path →
      s.fileOp = s'.fileOp ∧ (s.names old_path = none → s'.names old_path = none)) :
    Current s' := by
  refine ⟨fun fd d' p q hd' hp hq => ?_, fun old_path new_path hs' hne => ?_⟩
  · obtain ⟨d, hd, hi, hp'⟩ := hfds fd d' p hd' hp
    rw [hi] at hq
    have hheld : s'.heldBy (.fd fd) = some p := by rw [heldBy_fd hd', hp]
    obtain hname | ⟨old_path, hs, hname⟩ := h.named fd d p q hd hp' (hnames fd d q hd hq)
    · exact Or.inl (name_kept hb' heffect ha hname hheld)
    · refine Or.inr ⟨old_path, ?_, name_kept hb' heffect ha hname hheld⟩
      rw [hop old_path q hs, hs]
  · obtain ⟨hs, hnone⟩ := hmoved old_path new_path hs'
    exact hnone (h.moved old_path new_path (hs.trans hs') hne)

theorem unlock_renamed {op : FileOp} {fd : Nat} {old_path new_path : Path} :
    op.unlock fd = .renamed old_path new_path ↔ op = .renamed old_path new_path := by
  rw [FileOp.unlock]
  split
  · rename_i hop
    rw [hop]
    simp
  · rfl

/-- An fd takes a source file under its path. The opened file has no other name, unless a
rename away from the path is still to be captured. -/
theorem Current.attach (h : Current s) (hb' : Base hash exact s') (heffect : Effect s a s'.files)
    (ha : ¬ s.AtRename a) {fd : Nat} {d : Fd} (hnames : SameNames s s')
    (hfds : s'.fds = Function.update s.fds fd (some { d with stage := .attached p }))
    (hrun : s.files.getOrCreate hash d.path = .ok (p, s'.files))
    (hplace : ∀ q, s.names q = some d.inode → q = d.path ∨ s.fileOp = .renamed d.path q) :
    Current s' := by
  refine ⟨fun fd' d' q m hd' hq hm => ?_, ?_⟩
  · rw [hnames.names] at hm
    rw [hnames.fileOp]
    have hheld : s'.heldBy (.fd fd') = some q := by rw [heldBy_fd hd', hq]
    obtain ⟨-, hnew⟩ | hd' := fd_of_update hfds hd'
    · cases hnew
      cases hq
      have hname := Files.name_of_getOrCreate hrun
      obtain hm | hop := hplace m hm
      · rw [hm]
        exact Or.inl hname
      · exact Or.inr ⟨d.path, hop, hname⟩
    · obtain hold' | ⟨old_path, hop, hold'⟩ := h.named fd' d' q m hd' hq hm
      · exact Or.inl (name_kept hb' heffect ha hold' hheld)
      · exact Or.inr ⟨old_path, hop, name_kept hb' heffect ha hold' hheld⟩
  · rw [hnames.names, hnames.fileOp]
    exact h.moved

theorem current_opens (h : Current s) (hns : Namespace s) (hb' : Base hash exact s')
    (heffect : Effect s a s'.files) (hok : NamesFit hash s a) (ha : ¬ s.AtRename a)
    (hopen : Opens hash s a s') : Current s' := by
  have hold : ∀ fd (o : Option Fd), s'.fds = Function.update s.fds fd o →
      (∀ d p, o = some d → d.stage.source ≠ some p) → ∀ fd d' p, s'.fds fd = some d' →
      d'.stage.source = some p → ∃ d, s.fds fd = some d ∧ d'.inode = d.inode ∧
        d.stage.source = some p := by
    intro fd o hfds ho fd' d' p hd' hp
    exact ⟨d', fd_of_source hfds ho hd' hp, rfl, hp⟩
  have hsame : s'.names = s.names → ∀ fd d q, s.fds fd = some d → s'.names q = some d.inode →
      s.names q = some d.inode := by
    intro hnames fd d q _ hq
    rw [hnames] at hq
    exact hq
  have hopsame : s'.fileOp = s.fileOp → s'.names = s.names →
      (∀ old_path new_path, s.fileOp = .renamed old_path new_path → s'.fileOp = s.fileOp) ∧
      ∀ old_path new_path, s'.fileOp = .renamed old_path new_path →
        s.fileOp = s'.fileOp ∧ (s.names old_path = none → s'.names old_path = none) := by
    intro hop hnames
    rw [hnames]
    exact ⟨fun _ _ _ => hop, fun _ _ _ => ⟨hop.symm, id⟩⟩
  have hopunlock : ∀ fd, s'.fileOp = s.fileOp.unlock fd → s'.names = s.names →
      (∀ old_path new_path, s.fileOp = .renamed old_path new_path → s'.fileOp = s.fileOp) ∧
      ∀ old_path new_path, s'.fileOp = .renamed old_path new_path →
        s.fileOp = s'.fileOp ∧ (s.names old_path = none → s'.names old_path = none) := by
    intro fd hop hnames
    rw [hnames]
    refine ⟨fun old new hs => ?_, fun old new hs' => ⟨?_, id⟩⟩
    · rw [hop, hs]
      exact unlock_renamed.mpr rfl
    · rw [hs']
      exact unlock_renamed.mp (hop ▸ hs')
  cases hopen with
  | failed hnames hfds =>
    obtain ⟨hop, hmoved⟩ := hopsame hnames.fileOp hnames.names
    refine h.keep hb' heffect ha (fun fd d' p hd' hp => ?_) (hsame hnames.names) hop hmoved
    rw [hfds] at hd'
    exact ⟨d', hd', rfl, hp⟩
  | found fd path i _ _ hfds hnames _ hop =>
    obtain hop | ⟨hfree, hop⟩ := hop
    · obtain ⟨hop, hmoved⟩ := hopsame hop hnames
      refine h.keep hb' heffect ha (hold fd _ hfds fun d p hd => ?_) (hsame hnames) hop hmoved
      cases hd
      simp [FdStage.source]
    · refine h.keep hb' heffect ha (hold fd _ hfds fun d p hd => ?_) (hsame hnames)
        (by simp [hfree]) (by simp [hop])
      cases hd
      simp [FdStage.source]
  | new fd path _ hnone hfree hfds hnames _ hop =>
    refine h.keep hb' heffect ha (hold fd _ hfds fun d p hd => ?_) (fun fd' d q hd hq => ?_)
      (by simp [hfree]) (by simp [hop])
    · cases hd
      simp [FdStage.source]
    · rw [hnames, Function.update_apply] at hq
      split at hq
      · have hlt := hns.fds fd' d hd
        rw [Option.some.inj hq] at hlt
        exact absurd hlt (lt_irrefl _)
      · exact hq
  | untracked fd d _ _ hfds hnames _ hop =>
    obtain ⟨hop, hmoved⟩ := hopunlock fd hop hnames
    exact h.keep hb' heffect ha (hold fd none hfds fun d p hd => by cases hd) (hsame hnames) hop
      hmoved
  | moved fd d stage hd hmove hfds hnames _ hop =>
    obtain ⟨hop, hmoved⟩ : (∀ old_path new_path, s.fileOp = .renamed old_path new_path →
        s'.fileOp = s.fileOp) ∧ ∀ old_path new_path, s'.fileOp = .renamed old_path new_path →
        s.fileOp = s'.fileOp ∧ (s.names old_path = none → s'.names old_path = none) := by
      obtain hop | hop := hop
      · exact hopsame hop hnames
      · exact hopunlock fd hop hnames
    refine h.keep hb' heffect ha (fun fd' d' p hd' hp => ?_) (hsame hnames) hop hmoved
    obtain ⟨rfl, hnew⟩ | hold' := fd_of_update hfds hd'
    · cases hnew
      exact ⟨d, hd, rfl, (source_of_move hmove).symm.trans hp⟩
    · exact ⟨d', hold', rfl, hp⟩
  | attached fd d p hact hd hopened hname hrun hfds hnames =>
    refine h.attach hb' heffect ha hnames hfds hrun fun q hq => Or.inl ?_
    rw [hact] at hok
    exact (hok.2 d hd hopened).resolve_left hname q hq

/-- The section of a rename in the session: the fds of the file learn its new name. -/
theorem current_captured (h : Current s) (hb : Base hash exact s) (hb' : Base hash exact s')
    (heffect : Effect s a s'.files) (hok : NamesFit hash s a) {old_path new_path : Path}
    {created renamed enoent : Bool} (ha : a = .renameCapture created renamed enoent)
    (hop : s.fileOp = .renamed old_path new_path) (hop' : s'.fileOp = .free)
    (hnames : s'.names = s.names) (hfds : s'.fds = s.fds)
    (hfiles : ∀ D, s.session = some D → s.names new_path ≠ none → ∃ r, s'.files = r.1 ∧
      captureRename hash s.files D old_path new_path ⟨created, some new_path, renamed, enoent⟩ =
        .ok r) : Current s' := by
  have hkept : ∀ fd p q, s'.heldBy (.fd fd) = some p → s.files.name p = some q →
      (q = old_path → q = new_path) → s'.files.name p = some q := by
    intro fd p q hheld hname hq
    obtain hsame | ⟨new, -, hren, hname'⟩ := heffect.name hname (hb'.held _ p hheld)
    · exact hsame
    · rw [hop] at hren
      cases hren
      rw [hname', hq rfl]
  refine ⟨fun fd d p q hd hp hq => Or.inl ?_, fun old new hs' => ?_⟩
  · rw [hnames] at hq
    have hheld : s'.heldBy (.fd fd) = some p := by rw [heldBy_fd hd, hp]
    rw [hfds] at hd
    obtain hname | ⟨old, hren, hname⟩ := h.named fd d p q hd hp hq
    · refine hkept fd p q hheld hname fun hqo => ?_
      by_contra hne
      rw [hqo] at hq hne
      rw [h.moved old_path new_path hop (Ne.symm hne)] at hq
      cases hq
    · rw [hop] at hren
      cases hren
      by_cases hne : new_path = old_path
      · rw [← hne] at hname
        exact hkept fd p new_path hheld hname fun _ => rfl
      · -- the table finds the source file under the old name
        have htracked : d.stage.source ≠ none := by simp [hp]
        rw [ha] at hok
        obtain ⟨hrename, hnamed⟩ := hok
        obtain ⟨D, hsession, hold, hnew⟩ :=
          hnamed old_path new_path hop hne ⟨fd, d, hd, htracked, hq⟩
        obtain ⟨r, hr, hcapture⟩ := hfiles D hsession (by simp [hq])
        have hmem : s.files.table.Mem p := by
          rw [hb.mem]
          exact hb.held (.fd fd) p (by rw [heldBy_fd hd, hp])
        have hget := hb.rep.get_some hmem hname
        simp only [RenameFits, hop, hsession, hget] at hrename
        obtain ⟨-, -, hcreate⟩ := hrename hold hnew
        rw [hr]
        refine captureRename_name hcapture hget hold hnew (fun hnone => hcreate ?_) rfl ?_
        · have hdest : (s.files.heap p).bind SourceFile.destinationFile = none := hnone
          rw [State.destination, hdest]
          rfl
        · rw [← hr]
          exact hb'.held _ p hheld
  · rw [hop'] at hs'
    cases hs'

theorem current_operates (h : Current s) (hb : Base hash exact s) (hb' : Base hash exact s')
    (heffect : Effect s a s'.files) (hok : NamesFit hash s a) (hfds : s'.fds = s.fds)
    (hoperates : Operates hash s a s') : Current s' := by
  have hsame : ∀ fd d' p, s'.fds fd = some d' → d'.stage.source = some p →
      ∃ d, s.fds fd = some d ∧ d'.inode = d.inode ∧ d.stage.source = some p := by
    intro fd d' p hd' hp
    rw [hfds] at hd'
    exact ⟨d', hd', rfl, hp⟩
  -- a step at which no rename is between the real call and its section
  have hkeep : (∀ old new, s.fileOp ≠ .renamed old new) →
    (∀ old new, s'.fileOp ≠ .renamed old new) →
      (∀ q i, s'.names q = some i → s.names q = some i) → Current s' := by
    intro hop hop' hnames
    refine h.keep hb' heffect (fun hcap => ?_) hsame (fun _ _ q _ hq => hnames q _ hq)
      (fun old new hs => absurd hs (hop old new)) fun old new hs' => absurd hs' (hop' old new)
    obtain ⟨-, old, new, hs⟩ := hcap
    exact hop old new hs
  cases hoperates with
  | failed hnames hfiles =>
    refine ⟨fun fd d p q hd hp hq => ?_, ?_⟩
    · rw [hfds] at hd
      rw [hnames.names] at hq
      rw [hnames.fileOp, hfiles]
      exact h.named fd d p q hd hp hq
    · rw [hnames.names, hnames.fileOp]
      exact h.moved
  | unlinkStart path hop hop' hnames =>
    exact hkeep (by simp [hop]) (by simp [hop']) fun q i hq => by rw [← hnames]; exact hq
  | aborted hop hop' hnames =>
    refine hkeep ?_ (by simp [hop']) fun q i hq => by rw [← hnames]; exact hq
    obtain ⟨path, hop⟩ | ⟨old, new, hop⟩ := hop
    · simp [hop]
    · simp [hop]
  | unlinked path hop hop' hnames =>
    refine hkeep (by simp [hop]) (by simp [hop']) fun q i hq => ?_
    rw [hnames, Function.update_apply] at hq
    split at hq
    · cases hq
    · exact hq
  | held path p hop hop' hnames =>
    exact hkeep (by simp [hop]) (by simp [hop']) fun q i hq => by rw [← hnames]; exact hq
  | finished path p hop _ hop' hnames =>
    exact hkeep (by simp [hop]) (by simp [hop']) fun q i hq => by rw [← hnames]; exact hq
  | renameStart old_path new_path _ hop _ hop' hnames =>
    exact hkeep (by simp [hop]) (by simp [hop']) fun q i hq => by rw [← hnames]; exact hq
  | renamed old_path new_path ha hop hop' hnames =>
    have hcap : ¬ s.AtRename a := by
      intro hcap
      obtain ⟨-, old, new, hs⟩ := hcap
      rw [hop] at hs
      cases hs
    have hnamed : ∀ fd d p q, s'.fds fd = some d → d.stage.source = some p →
        s.names q = some d.inode → s'.files.name p = some q := by
      intro fd d p q hd hp hq
      have hheld : s'.heldBy (.fd fd) = some p := by rw [heldBy_fd hd, hp]
      rw [hfds] at hd
      obtain hname | ⟨old, hs, -⟩ := h.named fd d p q hd hp hq
      · exact name_kept hb' heffect hcap hname hheld
      · rw [hop] at hs
        cases hs
    refine ⟨fun fd d p q hd hp hq => ?_, fun old new hs' hne => ?_⟩
    · rw [hnames, Function.update_apply] at hq
      split at hq
      · rename_i hqnew
        refine Or.inr ⟨old_path, ?_, hnamed fd d p old_path hd hp hq⟩
        rw [hop', hqnew]
      · rw [Function.update_apply] at hq
        split at hq
        · cases hq
        · exact Or.inl (hnamed fd d p q hd hp hq)
    · rw [hop'] at hs'
      cases hs'
      rw [hnames, Function.update_of_ne (Ne.symm hne), Function.update_self]
  | captured old_path new_path created renamed enoent ha hop hop' hnames hfiles =>
    exact current_captured h hb hb' heffect hok ha hop hop' hnames hfds hfiles

theorem stepBackup_renameCapture {created renamed enoent : Bool} :
    stepBackup hash s (.renameCapture created renamed enoent) = none := by
  simp only [stepBackup]
  split <;> rfl

theorem current_step (h : Current s) (hns : Namespace s) (hb : Base hash exact s)
    (hb' : Base hash exact s') (heffect : Effect s a s'.files) (hok : NamesFit hash s a)
    (hstep : step hash s a = some s') : Current s' := by
  -- the steps that change no name
  have hsame : ¬ s.AtRename a → SameNames s s' →
      (∀ fd d' p, s'.fds fd = some d' → d'.stage.source = some p →
        ∃ d, s.fds fd = some d ∧ d'.inode = d.inode ∧ d.stage.source = some p) → Current s' := by
    intro ha hnames hfds
    refine h.keep hb' heffect ha hfds (fun _ _ q _ hq => ?_) (fun _ _ _ => hnames.fileOp)
      fun _ _ _ => ⟨hnames.fileOp.symm, fun hnone => ?_⟩
    · rw [← hnames.names]
      exact hq
    · rw [hnames.names]
      exact hnone
  have hfdsame : s'.fds = s.fds → ∀ fd d' p, s'.fds fd = some d' → d'.stage.source = some p →
      ∃ d, s.fds fd = some d ∧ d'.inode = d.inode ∧ d.stage.source = some p := by
    intro hfds fd d' p hd' hp
    rw [hfds] at hd'
    exact ⟨d', hd', rfl, hp⟩
  obtain ⟨-, hopen | hclose | hop | hthread | hback⟩ := step_cases hstep
  · refine current_opens h hns hb' heffect hok (fun hcap => ?_) (stepOpen_opens hopen)
    obtain ⟨⟨created, renamed, enoent, rfl⟩, -⟩ := hcap
    cases hopen
  · obtain ⟨hnames, hcloses, -⟩ := stepClose_frame hclose
    refine hsame (fun hcap => ?_) hnames fun fd d' p hd' hp => ?_
    · obtain ⟨⟨created, renamed, enoent, rfl⟩, -⟩ := hcap
      cases hclose
    · obtain ⟨d, hd, -, hi, hsource⟩ := hcloses fd d' hd'
      exact ⟨d, hd, hi, hsource p hp⟩
  · exact current_operates h hb hb' heffect hok (stepFileOp_frame hop).1 (stepFileOp_operates hop)
  · obtain ⟨hnames, hfds, -⟩ := stepThread_frame hthread
    refine hsame (fun hcap => ?_) hnames (hfdsame hfds)
    obtain ⟨⟨created, renamed, enoent, rfl⟩, -⟩ := hcap
    cases hthread
  · obtain ⟨hnames, hfds, -⟩ := stepBackup_frame hback
    refine hsame (fun hcap => ?_) hnames (hfdsame hfds)
    obtain ⟨⟨created, renamed, enoent, rfl⟩, -⟩ := hcap
    rw [stepBackup_renameCapture] at hback
    cases hback

/-! ## Runs -/

theorem mapSize_step (hsize : ∀ fd p, s.mapped fd = some p → fd < s.mapSize)
    (hstep : step hash s a = some s') : ∀ fd p, s'.mapped fd = some p → fd < s'.mapSize := by
  intro fd p hp
  obtain ⟨hle, hmapped⟩ := mapped_step hstep
  obtain hold | ⟨-, hlt⟩ := hmapped fd p hp
  · exact lt_of_lt_of_le (hsize fd p hold) hle
  · exact hlt

/-- What holds in every state of a run whose steps meet the condition. -/
structure Known (hash : Path → Nat) (s : State) : Prop where
  base : Base hash False s
  op : OpNamed s
  space : Namespace s
  current : Current s
  size : ∀ fd p, s.mapped fd = some p → fd < s.mapSize

theorem known_initial (h : Initial s) : Known hash s := by
  refine ⟨base_initial h, opNamed_initial h, namespace_initial h, current_initial h, ?_⟩
  intro fd p hp
  simp [State.mapped, h.fds] at hp

theorem Known.step (h : Known hash s) (hok : NamesFit hash s a) (hstep : step hash s a = some s') :
    Known hash s' ∧ Effect s a s'.files := by
  obtain ⟨hb', heffect⟩ := base_step h.base h.op.done hok.1 (fun h => absurd h id) hstep
  exact ⟨⟨hb', opNamed_step h.op hstep, namespace_step h.space hstep,
    current_step h.current h.space h.base hb' heffect hok hstep, mapSize_step h.size hstep⟩,
      heffect⟩

/-- Every run whose steps meet the condition keeps the names current. -/
theorem current_run (hinit : Initial s₀) {as : List Action}
    (hok : RunOk (step hash) (NamesFit hash) s₀ as) (hrun : run (step hash) s₀ as = some s) :
    Known hash s :=
  run_invariant (fun _ _ _ hs hok hstep => (hs.step hok hstep).1) (known_initial hinit) hok hrun

/-- The iteration of `prepare_directories_for_backup` for a file with the current name `n`
makes the destination under the translated `n`. -/
theorem prepare_current (hb : Base hash exact s) (hlive : s.files.heap p ≠ none)
    (hname : s.files.name p = some n) (hnone : s.files.dest p = none)
    (hlinked : ∀ f, s.files.heap p = some f → f.unlinked = false) {D : DirectorySet} {dest : Path}
    (hdest : D.translatePrefixOfRealpath n = some dest) (hin : D.fileIsExcluded dest = false) :
    ∃ F' d, prepare s D p true true = .ok (F', .next) ∧ F'.dest p = some d ∧ d.path = dest := by
  obtain ⟨f, hf⟩ := Option.ne_none_iff_exists'.mp hlive
  have hinside : D.isPrefixOfRealpath n = true := by
    obtain ⟨index, hindex, -⟩ := Option.bind_eq_some_iff.mp hdest
    rw [DirectorySet.isPrefixOfRealpath, hindex]
    rfl
  have hnone : f.destinationFile = none := by
    rw [Files.dest, hf] at hnone
    exact hnone
  obtain ⟨ok, F', hrun, -⟩ := hb.create (a := .error) hf dest true
  obtain ⟨f₁, hf₁, -, -, ⟨-, hyes, hno⟩ | ⟨hok, -, -, -, hheap⟩⟩ :=
    Files.tryToCreateDestinationFile_heap hrun
  · rw [hf] at hf₁
    cases hf₁
    cases ok with
    | false => exact absurd (hno rfl).1 (by simp)
    | true =>
      obtain hu | hd := hyes rfl
      · rw [hlinked f hf] at hu
        cases hu
      · rw [hnone] at hd
        cases hd
  · refine ⟨F', ⟨s.files.freshDestination, dest⟩, ?_, ?_, rfl⟩
    · rw [Lifecycle.prepare, hname, demand_some, ok_bind, if_neg (by simp [hinside]), hdest,
        demand_some, ok_bind, if_neg (by simp [hin]), if_neg (by simp), hrun, hok]
      rfl
    · rw [Files.dest, hheap, Function.update_self]
      rfl

end

end TokuBackup.Lifecycle
