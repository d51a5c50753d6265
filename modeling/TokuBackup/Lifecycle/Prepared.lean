import TokuBackup.Lifecycle.CurrentNames
import TokuBackup.Lifecycle.PathReuse
import TokuBackup.Lifecycle.Users

/-!
# Open files of a session

`prepare_directories_for_backup` gives a destination to the files that are open when a
session starts, and `manager::open` to those that are opened in it. An fd is in the map
before its `open` looks for a session, so that none of them is missed: an `open` that does
not see the session has put its fd where the preparation finds it.

The preparation leaves its loop at the first excluded file. Where it does not, and each
capture reaches its file, every fd in use has a destination from then on.
-/

namespace TokuBackup.Lifecycle.Prepared

open Kernel Table Lib

structure State where
  base : Lifecycle.State
  /-- The preparation of the session has succeeded, and the session has not ended. -/
  prepared : Bool

/-- Whether the preparation has succeeded, by where the backup thread is; `before` says so for
the state before. -/
def succeeded (before : Bool) : Backup → Bool
  | .running | .copying _ => true
  | .stopping => before
  | .idle | .preparing _ | .disabling _ => false

/-- The fd's file is in a source directory and not excluded, and the source file has its
name. -/
def Wants (b : Lifecycle.State) (D : DirectorySet) (d : Fd) (p : Ptr) : Prop :=
  ∃ q, b.names q = some d.inode ∧ b.files.name p = some q ∧ D.isPrefixOfRealpath q = true ∧
    D.excludeCopy q = false

section

variable (hash : Path → Nat)

def step (s : State) (a : Action) : Option State :=
  (Lifecycle.step hash s.base a).map fun base => ⟨base, succeeded s.prepared base.backup⟩

/-- The table has no marked source file at the path of an fd that is attached; `open`
captures a file that has no destination yet, by a path that still exists and is not excluded
as a backup path, and its calls succeed; and where the preparation meets an excluded backup
path, the fds from there on have destinations already, or need none. -/
def CaptureOk (s : Lifecycle.State) : Action → Prop
  | .openAttach fd =>
    ∀ d p f, s.fds fd = some d → s.names d.path ≠ none →
      s.files.get hash d.path = .ok (some p) → s.files.heap p = some f → f.unlinked = false
  | .openCapture fd opened created =>
    ∀ D d p, s.session = some D → s.fds fd = some d → d.stage = .published p → Wants s D d p →
      s.destination p = none → s.names d.path ≠ none ∧ opened = true ∧ created = true ∧
        ∃ dest, D.translatePrefixOfRealpath d.path = some dest ∧ D.fileIsExcluded dest = false
  | .prepareNext _ _ =>
    ∀ D i source name dest, s.session = some D → s.backup = .preparing i →
      s.mapped i = some source → s.files.name source = some name →
      D.translatePrefixOfRealpath name = some dest → D.fileIsExcluded dest = true →
      ∀ fd d p, i ≤ fd → s.fds fd = some d → d.stage = .usable p → Wants s D d p →
        s.destination p ≠ none
  | _ => True

/-- The condition of the main result. -/
def PreparedOk (s : State) (a : Action) : Prop :=
  NamesFit hash s.base a ∧ CaptureOk hash s.base a

end

/-- Nothing is tracked and nothing is in flight. -/
structure Initial (s : State) : Prop where
  base : Lifecycle.Initial s.base
  prepared : s.prepared = false

section

variable {hash : Path → Nat} {b b' : Lifecycle.State} {s s' s₀ : State} {a : Action} {p : Ptr}
  {opened created : Bool}

/-! ## The fds and the names before a step -/

theorem usable_stepOpen (hstep : stepOpen hash b a = some b') {fd : Nat} {d' : Fd}
    (hd' : b'.fds fd = some d') (hstage : d'.stage = .usable p) :
    b.fds fd = some d' ∨ ∃ d opened created, a = .openCapture fd opened created ∧
      b.fds fd = some d ∧ d.stage = .published p ∧ d' = { d with stage := .usable p } := by
  have hother : ∀ (fd' : Nat) (o : Option Fd), b'.fds = Function.update b.fds fd' o →
      (∀ d, o = some d → d.stage ≠ .usable p) → b.fds fd = some d' := by
    intro fd' o hfds ho
    obtain ⟨-, hnew⟩ | hold := fd_of_update hfds hd'
    · exact absurd hstage (ho d' hnew)
    · exact hold
  cases openStep_of_stepOpen hstep with
  | existing fd' path i _ _ hs' =>
    subst hs'
    exact Or.inl (hother fd' _ rfl (by rintro d ⟨⟩; simp))
  | found fd' path i _ _ _ hs' =>
    subst hs'
    exact Or.inl (hother fd' _ rfl (by rintro d ⟨⟩; simp))
  | new fd' path _ _ _ hs' =>
    subst hs'
    exact Or.inl (hother fd' _ rfl (by rintro d ⟨⟩; simp))
  | untracked fd' d _ _ _ hs' =>
    subst hs'
    exact Or.inl (hother fd' none rfl (by simp))
  | attach fd' d _ _ _ hsection =>
    obtain ⟨e, rfl⟩ | ⟨r, -, rfl⟩ := State.attempt_cases hsection
    · exact Or.inl hd'
    · exact Or.inl (hother fd' _ rfl (by rintro d ⟨⟩; simp))
  | publish fd' d source _ _ _ hs' =>
    subst hs'
    exact Or.inl (hother fd' _ rfl (by rintro d ⟨⟩; simp))
  | capture fd' opened created d source captured hd hpublished _ _ hsection =>
    obtain ⟨e, rfl⟩ | ⟨r, -, rfl⟩ := State.attempt_cases hsection
    · exact Or.inl hd'
    -- the fd whose `open` returns
    obtain ⟨rfl, hnew⟩ | hold := fd_of_update rfl hd'
    · cases hnew
      cases hstage
      exact Or.inr ⟨d, opened, created, rfl, hd, hpublished, rfl⟩
    · exact Or.inl hold

/-- An fd in use after a step was in use before, or its `open` has just returned. -/
theorem usable_back (hstep : Lifecycle.step hash b a = some b') {fd : Nat} {d' : Fd}
    (hd' : b'.fds fd = some d') (hstage : d'.stage = .usable p) :
    b.fds fd = some d' ∨ ∃ d opened created, a = .openCapture fd opened created ∧
      b.fds fd = some d ∧ d.stage = .published p ∧ d' = { d with stage := .usable p } := by
  obtain ⟨-, hopen | hclose | hop | hthread | hback⟩ := step_cases hstep
  · exact usable_stepOpen hopen hd' hstage
  · refine Or.inl ?_
    obtain hfds | ⟨fd', d, o, -, -, -, ho, hfds⟩ := stepClose_moves hclose
    · exact hfds ▸ hd'
    · obtain ⟨-, h⟩ | hd := fd_of_update hfds hd'
      · exact absurd hstage (ho d' p h)
      · exact hd
  · exact Or.inl ((stepFileOp_frame hop).1 ▸ hd')
  · exact Or.inl ((stepThread_frame hthread).2.1 ▸ hd')
  · exact Or.inl ((stepBackup_frame hback).2.1 ▸ hd')

/-- Only a real `rename` gives a name to a file that has an fd, and only one that it had. -/
theorem name_back (hns : Namespace b) (hstep : Lifecycle.step hash b a = some b')
    {fd : Nat} {d : Fd}
    (hd : b.fds fd = some d) {q : Path} (hq : b'.names q = some d.inode) :
    b.names q = some d.inode ∨
      ∃ old_path, b.fileOp = .renaming old_path q ∧ b'.fileOp = .renamed old_path q ∧
        b.names old_path = some d.inode := by
  obtain ⟨-, hopen | hclose | hop | hthread | hback⟩ := step_cases hstep
  · refine Or.inl ?_
    cases stepOpen_opens hopen with
    | failed hnames _ => exact hnames.names ▸ hq
    | found fd' path i _ _ _ hnames => exact hnames ▸ hq
    | new fd' path _ _ _ _ hnames =>
      rw [hnames, Function.update_apply] at hq
      split at hq
      · have hlt := hns.fds fd d hd
        rw [Option.some.inj hq] at hlt
        exact absurd hlt (lt_irrefl _)
      · exact hq
    | untracked fd' d _ _ _ hnames => exact hnames ▸ hq
    | attached fd' d q _ _ _ _ _ _ hnames => exact hnames.names ▸ hq
    | moved fd' d stage _ _ _ hnames => exact hnames ▸ hq
  · exact Or.inl ((stepClose_frame hclose).1.names ▸ hq)
  · cases stepFileOp_operates hop with
    | failed hnames _ => exact Or.inl (hnames.names ▸ hq)
    | unlinkStart path _ _ hnames => exact Or.inl (hnames ▸ hq)
    | aborted _ _ hnames => exact Or.inl (hnames ▸ hq)
    | unlinked path _ _ hnames =>
      rw [hnames, Function.update_apply] at hq
      split at hq
      · cases hq
      · exact Or.inl hq
    | held path p _ _ hnames _ => exact Or.inl (hnames ▸ hq)
    | finished path p _ _ _ hnames => exact Or.inl (hnames ▸ hq)
    | renameStart old_path new_path _ _ _ _ hnames => exact Or.inl (hnames ▸ hq)
    | renamed old_path new_path _ hbefore hafter hnames =>
      rw [hnames, Function.update_apply] at hq
      split at hq
      · rename_i hnew
        subst hnew
        exact Or.inr ⟨old_path, hbefore, hafter, hq⟩
      · rw [Function.update_apply] at hq
        split at hq
        · cases hq
        · exact Or.inl hq
    | captured old_path new_path _ _ _ _ _ _ hnames _ => exact Or.inl (hnames ▸ hq)
  · exact Or.inl ((stepThread_frame hthread).1.names ▸ hq)
  · exact Or.inl ((stepBackup_frame hback).1.names ▸ hq)

/-- A source file that a captured rename has given a new name has a destination. -/
theorem renamed_destination (h : Effect b a b'.files) {n m : Path} (hn : b.files.name p = some n)
    (hm : b'.files.name p = some m) (hne : m ≠ n) : b'.destination p ≠ none := by
  have hsame : ∀ q f g, b.files.heap q = some f →
      b'.files.heap = Function.update b.files.heap q (some g) →
        g.fullPath = f.fullPath → False := by
    intro q f g hf hheap hg
    rw [Files.name_update hheap] at hm
    split at hm
    · rename_i hq
      rw [hq, Files.name_of_heap hf, ← hg] at hn
      exact hne (Option.some.inj (hm.symm.trans hn))
    · rw [hn] at hm
      exact hne (Option.some.inj hm).symm
  cases h with
  | same hheap =>
    rw [Files.name, hheap] at hm
    exact absurd (Option.some.inj (hm.symm.trans hn)) hne
  | added q path hdead hheap =>
    rw [Files.name_update hheap] at hm
    split at hm
    · rename_i hq
      rw [hq, Files.name, hdead] at hn
      cases hn
    · exact absurd (Option.some.inj (hm.symm.trans hn)) hne
  | deleted q f hf hone hheap =>
    rw [Files.name_update hheap] at hm
    split at hm
    · cases hm
    · exact absurd (Option.some.inj (hm.symm.trans hn)) hne
  | counted q f k hf hheap => exact (hsame q f _ hf hheap rfl).elim
  | created q f d hf hnone hheap => exact (hsame q f _ hf hheap rfl).elim
  | unhooked h' q f hun hh' hf hone hheap => exact (hsame q f _ hf hheap rfl).elim
  | disabled i q f hi hf hheap => exact (hsame q f _ hf hheap rfl).elim
  | marked path q f d ha hop hf hmore hsome hheap => exact (hsame q f _ hf hheap rfl).elim
  | renamed old_path new_path q f d ha hop hf hold hid hheap =>
    by_cases hq : p = q
    · rw [destination_update hheap, if_pos hq]
      simp
    · rw [Files.name_update hheap, if_neg hq, hn] at hm
      exact absurd (Option.some.inj hm).symm hne

/-! ## Marks -/

/-- An unlink that has made its real call: nothing has the path, and the source file that it
holds is the one of the path. -/
structure Gone (b : Lifecycle.State) : Prop where
  names : ∀ path, b.fileOp.Removes path → b.names path = none
  held : ∀ path p, b.fileOp = .unlinkHeld path p → b.files.name p = some path

/-- The source file of an fd whose file has a name is not marked as unlinked. -/
def Linked (b : Lifecycle.State) : Prop :=
  ∀ fd d p q f, b.fds fd = some d → d.stage.source = some p → b.names q = some d.inode →
    b.files.heap p = some f → f.unlinked = false

theorem gone_initial (h : Lifecycle.Initial b) : Gone b := by
  refine ⟨fun path hop => ?_, fun path p hop => ?_⟩
  · rw [FileOp.Removes, h.fileOp] at hop
    obtain hop | ⟨p, hop⟩ := hop
    · cases hop
    · cases hop
  · rw [h.fileOp] at hop
    cases hop

/-- A step after which an unlink is no further than before. -/
theorem Gone.keep (h : Gone b) (hb' : Base hash False b') (heffect : Effect b a b'.files)
    (hnames : ∀ path, b.names path = none → b.fileOp.Removes path → b'.names path = none)
    (hop : b'.fileOp = b.fileOp ∨ (∀ path, ¬ b'.fileOp.Removes path)) : Gone b' := by
  obtain hop | hop := hop
  · refine ⟨fun path hr => ?_, fun path p hh => ?_⟩
    · rw [hop] at hr
      exact hnames path (h.names path hr) hr
    · have hheld : b'.heldBy .fileOp = some p := by
        rw [State.heldBy, hh]
        rfl
      rw [hop] at hh
      obtain hsame | ⟨new_path, -, hren, -⟩ := heffect.name (h.held path p hh) (hb'.held _ p hheld)
      · exact hsame
      · rw [hh] at hren
        cases hren
  · refine ⟨fun path hr => absurd hr (hop path), fun path p hh => ?_⟩
    exact absurd (Or.inr ⟨p, hh⟩) (hop path)

theorem not_removes {op : FileOp} (h₁ : ∀ path, op ≠ .unlinked path)
    (h₂ : ∀ path p, op ≠ .unlinkHeld path p) (path : Path) : ¬ op.Removes path := by
  rintro (hop | ⟨p, hop⟩)
  · exact h₁ path hop
  · exact h₂ path p hop

theorem unlock_removes {op : FileOp} {fd : Nat} :
    op.unlock fd = op ∨ ∀ path, ¬ (op.unlock fd).Removes path := by
  rw [FileOp.unlock]
  split
  · exact Or.inr (not_removes (by simp) (by simp))
  · exact Or.inl rfl

theorem gone_opens (h : Gone b) (hb' : Base hash False b') (heffect : Effect b a b'.files)
    (hopen : Opens hash b a b') : Gone b' := by
  cases hopen with
  | failed hnames _ =>
    exact h.keep hb' heffect (fun path hn _ => hnames.names ▸ hn) (Or.inl hnames.fileOp)
  | found fd path i _ _ _ hnames _ hop =>
    refine h.keep hb' heffect (fun path hn _ => hnames ▸ hn) ?_
    obtain hop | ⟨-, hop⟩ := hop
    · exact Or.inl hop
    · exact Or.inr (not_removes (by simp [hop]) (by simp [hop]))
  | new fd path _ _ hfree _ hnames _ hop =>
    refine h.keep hb' heffect (fun path _ hr => ?_)
      (Or.inr (not_removes (by simp [hop]) (by simp [hop])))
    rw [hfree] at hr
    exact absurd hr (not_removes (by simp) (by simp) path)
  | untracked fd d _ _ _ hnames _ hop =>
    refine h.keep hb' heffect (fun path hn _ => hnames ▸ hn) ?_
    rw [hop]
    exact unlock_removes
  | attached fd d p _ _ _ _ _ _ hnames =>
    exact h.keep hb' heffect (fun path hn _ => hnames.names ▸ hn) (Or.inl hnames.fileOp)
  | moved fd d stage _ _ _ hnames _ hop =>
    refine h.keep hb' heffect (fun path hn _ => hnames ▸ hn) ?_
    obtain hop | hop := hop
    · exact Or.inl hop
    · rw [hop]
      exact unlock_removes

theorem gone_operates (h : Gone b) (hb' : Base hash False b') (heffect : Effect b a b'.files)
    (hop : Operates hash b a b') : Gone b' := by
  have hother : (∀ path, b'.fileOp ≠ .unlinked path) → (∀ path p, b'.fileOp ≠ .unlinkHeld path p) →
      b'.names = b.names → Gone b' := by
    intro h₁ h₂ hnames
    exact h.keep hb' heffect (fun path hn _ => hnames ▸ hn) (Or.inr (not_removes h₁ h₂))
  cases hop with
  | failed hnames _ =>
    exact h.keep hb' heffect (fun path hn _ => hnames.names ▸ hn) (Or.inl hnames.fileOp)
  | unlinkStart path _ hop' hnames => exact hother (by simp [hop']) (by simp [hop']) hnames
  | aborted _ hop' hnames => exact hother (by simp [hop']) (by simp [hop']) hnames
  | unlinked path hop hop' hnames =>
    refine ⟨fun path' hr => ?_, fun path' p hh => ?_⟩
    · rw [hop'] at hr
      obtain hr | ⟨p, hr⟩ := hr
      · cases hr
        rw [hnames, Function.update_self]
      · cases hr
    · rw [hop'] at hh
      cases hh
  | held path p hop hop' hnames hrun =>
    refine ⟨fun path' hr => ?_, fun path' q hh => ?_⟩
    · rw [hop'] at hr
      obtain hr | ⟨q, hr⟩ := hr
      · cases hr
      · cases hr
        rw [hnames]
        exact h.names path (Or.inl hop)
    · rw [hop'] at hh
      cases hh
      exact Files.name_of_getOrCreate hrun
  | finished path p _ _ hop' hnames => exact hother (by simp [hop']) (by simp [hop']) hnames
  | renameStart old_path new_path _ _ _ hop' hnames =>
    exact hother (by simp [hop']) (by simp [hop']) hnames
  | renamed old_path new_path _ hop hop' _ =>
    refine h.keep hb' heffect (fun path _ hr => ?_)
      (Or.inr (not_removes (by simp [hop']) (by simp [hop'])))
    rw [hop] at hr
    exact absurd hr (not_removes (by simp) (by simp) path)
  | captured old_path new_path _ _ _ _ _ hop' hnames _ =>
    exact hother (by simp [hop']) (by simp [hop']) hnames

theorem gone_step (h : Gone b) (hb' : Base hash False b') (heffect : Effect b a b'.files)
    (hstep : Lifecycle.step hash b a = some b') : Gone b' := by
  have hsame : SameNames b b' → Gone b' := by
    intro hnames
    exact h.keep hb' heffect (fun path hn _ => hnames.names ▸ hn) (Or.inl hnames.fileOp)
  obtain ⟨-, hopen | hclose | hop | hthread | hback⟩ := step_cases hstep
  · exact gone_opens h hb' heffect (stepOpen_opens hopen)
  · exact hsame (stepClose_frame hclose).1
  · exact gone_operates h hb' heffect (stepFileOp_operates hop)
  · exact hsame (stepThread_frame hthread).1
  · exact hsame (stepBackup_frame hback).1

/-- The source file of an fd after a step was its source file before, or the table has just
returned it. -/
theorem source_back (hstep : Lifecycle.step hash b a = some b') {fd : Nat} {d' : Fd}
    (hd' : b'.fds fd = some d') (hp : d'.stage.source = some p) :
    (∃ d, b.fds fd = some d ∧ d'.path = d.path ∧ d'.inode = d.inode ∧ d.stage.source = some p) ∨
      a = .openAttach fd ∧ ∃ d, b.fds fd = some d ∧ d'.path = d.path ∧ b.names d.path ≠ none ∧
        b.files.getOrCreate hash d.path = .ok (p, b'.files) := by
  have hnew : ∀ (fd' : Nat) (o : Option Fd), b'.fds = Function.update b.fds fd' o →
      (∀ d q, o = some d → d.stage.source ≠ some q) →
      ∃ d, b.fds fd = some d ∧ d'.path = d.path ∧ d'.inode = d.inode ∧
        d.stage.source = some p :=
    fun fd' o hfds ho => ⟨d', fd_of_source hfds ho hd' hp, rfl, rfl, hp⟩
  obtain ⟨-, hopen | hclose | hop | hthread | hback⟩ := step_cases hstep
  · cases stepOpen_opens hopen with
    | failed _ hfds => exact Or.inl ⟨d', hfds ▸ hd', rfl, rfl, hp⟩
    | found fd' path i _ _ hfds => exact Or.inl (hnew fd' _ hfds (by rintro d q ⟨⟩ ⟨⟩))
    | new fd' path _ _ _ hfds => exact Or.inl (hnew fd' _ hfds (by rintro d q ⟨⟩ ⟨⟩))
    | untracked fd' d _ _ hfds => exact Or.inl (hnew fd' _ hfds (by simp))
    | attached fd' d q hact hd _ hname hrun hfds =>
      obtain ⟨rfl, h⟩ | he := fd_of_update hfds hd'
      · cases h
        cases hp
        exact Or.inr ⟨hact, d, hd, rfl, hname, hrun⟩
      · exact Or.inl ⟨d', he, rfl, rfl, hp⟩
    | moved fd' d stage hd hmove hfds =>
      refine Or.inl ?_
      obtain ⟨rfl, h⟩ | he := fd_of_update hfds hd'
      · cases h
        exact ⟨d, hd, rfl, rfl, (source_of_move hmove).symm.trans hp⟩
      · exact ⟨d', he, rfl, rfl, hp⟩
  · obtain ⟨-, hcloses, -⟩ := stepClose_frame hclose
    obtain ⟨d, hd, hpath, hi, hsource⟩ := hcloses fd d' hd'
    exact Or.inl ⟨d, hd, hpath, hi, hsource p hp⟩
  · exact Or.inl ⟨d', (stepFileOp_frame hop).1 ▸ hd', rfl, rfl, hp⟩
  · exact Or.inl ⟨d', (stepThread_frame hthread).2.1 ▸ hd', rfl, rfl, hp⟩
  · exact Or.inl ⟨d', (stepBackup_frame hback).2.1 ▸ hd', rfl, rfl, hp⟩

/-- Only the section of an unlink marks a source file. -/
theorem unmarked_step (h : Effect b a b'.files) {f g : SourceFile} (hf : b.files.heap p = some f)
    (hlinked : f.unlinked = false) (hg : b'.files.heap p = some g) :
    g.unlinked = false ∨ ∃ path, b.fileOp = .unlinkHeld path p := by
  have hupdate : ∀ q o, b'.files.heap = Function.update b.files.heap q o →
      (∀ g, p = q → o = some g → g.unlinked = false) → g.unlinked = false := by
    intro q o hheap ho
    rw [hheap, Function.update_apply] at hg
    split at hg
    · rename_i hq
      exact ho g hq hg
    · rw [hf] at hg
      cases hg
      exact hlinked
  have hsame : ∀ {q f'}, b.files.heap q = some f' → p = q → f'.unlinked = false := by
    intro q f' hf' hq
    rw [← hq, hf] at hf'
    cases hf'
    exact hlinked
  cases h with
  | same hheap =>
    rw [hheap, hf] at hg
    cases hg
    exact Or.inl hlinked
  | added q path hdead hheap => exact Or.inl (hupdate q _ hheap (by rintro g - ⟨⟩; rfl))
  | deleted q f' hf' hone hheap => exact Or.inl (hupdate q _ hheap (by simp))
  | counted q f' k hf' hheap =>
    exact Or.inl (hupdate q _ hheap (by rintro g hq ⟨⟩; exact (hsame hf' hq : f'.unlinked = false)))
  | created q f' d hf' hnone hheap =>
    exact Or.inl (hupdate q _ hheap (by rintro g hq ⟨⟩; exact (hsame hf' hq : f'.unlinked = false)))
  | unhooked h' q f' hun hh' hf' hone hheap =>
    exact Or.inl (hupdate q _ hheap (by rintro g hq ⟨⟩; exact (hsame hf' hq : f'.unlinked = false)))
  | disabled i q f' hi hf' hheap =>
    exact Or.inl (hupdate q _ hheap (by rintro g hq ⟨⟩; exact (hsame hf' hq : f'.unlinked = false)))
  | renamed old_path new_path q f' d ha hop hf' hold hid hheap =>
    exact Or.inl (hupdate q _ hheap (by rintro g hq ⟨⟩; exact (hsame hf' hq : f'.unlinked = false)))
  | marked path q f' d ha hop hf' hmore hsome hheap =>
    by_cases hq : p = q
    · rw [hq]
      exact Or.inr ⟨path, hop⟩
    · exact Or.inl (hupdate q _ hheap fun g hq' _ => absurd hq' hq)

theorem linked_initial (h : Lifecycle.Initial b) : Linked b := by
  intro fd d p q f hd
  rw [h.fds] at hd
  cases hd

theorem linked_step (h : Linked b) (hk : Known hash b) (hgone : Gone b)
    (heffect : Effect b a b'.files) (hok : CaptureOk hash b a)
    (hstep : Lifecycle.step hash b a = some b') : Linked b' := by
  intro fd d' p q f hd' hp hq hf
  obtain ⟨d, hd, -, hinode, hp'⟩ | ⟨rfl, d, hd, -, hname, hrun⟩ := source_back hstep hd' hp
  · rw [hinode] at hq
    obtain ⟨q₀, hq₀⟩ : ∃ q₀, b.names q₀ = some d.inode := by
      obtain hq₀ | ⟨old_path, -, -, hq₀⟩ := name_back hk.space hstep hd hq
      · exact ⟨q, hq₀⟩
      · exact ⟨old_path, hq₀⟩
    obtain ⟨g, hg⟩ :=
      Option.ne_none_iff_exists'.mp (hk.base.held (.fd fd) p (by rw [heldBy_fd hd, hp']))
    obtain hfine | ⟨path, hop⟩ := unmarked_step heffect hg (h fd d p q₀ g hd hp' hq₀ hg) hf
    · exact hfine
    · -- the unlinked path would be the name of the fd's file
      obtain hnamed | ⟨old_path, hren, -⟩ := hk.current.named fd d p q₀ hd hp' hq₀
      · rw [hgone.held path p hop] at hnamed
        rw [← Option.some.inj hnamed, hgone.names path (Or.inr ⟨p, hop⟩)] at hq₀
        cases hq₀
      · rw [hop] at hren
        cases hren
  · obtain ⟨-, ⟨g, hg, -, hF⟩ | ⟨-, -, hheap⟩⟩ := Files.getOrCreate_heap hrun
    · obtain hget | ⟨hget, hfresh⟩ := Files.get_of_getOrCreate hrun
      · rw [hF, Files.set_heap, Function.update_self] at hf
        cases hf
        exact hok d p g hd hname hget hg
      · rw [hfresh] at hg
        exact absurd (hk.base.fresh _ g hg) (lt_irrefl _)
    · rw [hheap, Function.update_self] at hf
      cases hf
      rfl

/-! ## Where the preparation is -/

/-- The preparation has come past the fd. -/
def Past (s : State) (fd : Nat) : Prop :=
  s.prepared = true ∨ ∃ i, s.base.backup = .preparing i ∧ fd < i

theorem copierStep_backup {c : Copier} (hstep : CopierStep hash b c b' a)
    (hc : b.backup = .copying c) :
    b'.session = b.session ∧ ((∃ c', b'.backup = .copying c') ∨ b'.backup = .running) := by
  cases hstep with
  | opened _ _ hs' =>
    subst hs'
    exact ⟨rfl, Or.inl ⟨_, rfl⟩⟩
  | skipped ok _ _ hs' =>
    subst hs'
    exact ⟨rfl, Or.inl ⟨_, rfl⟩⟩
  | create created _ hsection =>
    obtain ⟨e, rfl⟩ | ⟨r, -, rfl⟩ := State.attempt_cases hsection
    · exact ⟨rfl, Or.inl ⟨c, hc⟩⟩
    · exact ⟨rfl, Or.inl ⟨_, rfl⟩⟩
  | use dest _ _ hs' =>
    subst hs'
    exact ⟨rfl, Or.inl ⟨c, hc⟩⟩
  | misuse dest _ _ hs' =>
    subst hs'
    exact ⟨rfl, Or.inl ⟨c, hc⟩⟩
  | done ok dest _ hs' =>
    subst hs'
    exact ⟨rfl, Or.inl ⟨_, rfl⟩⟩
  | unhook _ hsection =>
    obtain ⟨e, rfl⟩ | ⟨F, -, rfl⟩ := State.attempt_cases hsection
    · exact ⟨rfl, Or.inl ⟨c, hc⟩⟩
    · exact ⟨rfl, Or.inl ⟨_, rfl⟩⟩
  | release _ hsection =>
    obtain ⟨e, rfl⟩ | ⟨F, -, rfl⟩ := State.attempt_cases hsection
    · exact ⟨rfl, Or.inl ⟨c, hc⟩⟩
    · exact ⟨rfl, Or.inr rfl⟩

/-- How a step of the backup thread moves it on. -/
inductive Advances (b : Lifecycle.State) (a : Action) (b' : Lifecycle.State) : Prop where
  | same : b'.session = b.session → b'.backup = b.backup → Advances b a b'
  | started : (∀ i, b'.backup = .preparing i → i = 0) → (∃ i, b'.backup = .preparing i) →
      Advances b a b'
  /-- An iteration of the preparation. -/
  | prepared (i : Nat) : (∃ opened created, a = .prepareNext opened created) →
      b.backup = .preparing i → b'.session = b.session → Advances b a b'
  /-- From one file of the copier to the next. -/
  | copied : b'.session = b.session →
      (b.backup = .running ∨ ∃ c, b.backup = .copying c) →
      (b'.backup = .running ∨ b'.backup = .stopping ∨ ∃ c, b'.backup = .copying c) →
      Advances b a b'
  | ended : b'.backup = .idle ∨ (∃ i, b'.backup = .disabling i) → Advances b a b'

theorem stepBackup_advances (hstep : stepBackup hash b a = some b') : Advances b a b' := by
  cases backupStep_of_stepBackup hstep with
  | start D _ _ hs' =>
    subst hs'
    exact Advances.started (by rintro i ⟨⟩; rfl) ⟨0, rfl⟩
  | prepare opened created i D source hi _ _ _ hsection =>
    refine Advances.prepared i ⟨_, _, rfl⟩ hi ?_
    obtain ⟨e, rfl⟩ | ⟨⟨files, result⟩, -, rfl⟩ := State.attempt_cases hsection
    · rfl
    · cases result with
      | next => rfl
      | out => rfl
      | failed => rfl
  | prepareSkip opened created i D hi _ _ _ hs' =>
    subst hs'
    exact Advances.prepared i ⟨_, _, rfl⟩ hi rfl
  | prepared opened created i D hi _ _ hs' =>
    subst hs'
    exact Advances.prepared i ⟨_, _, rfl⟩ hi rfl
  | copierStart i file D source destination hrunning _ _ hsection =>
    obtain ⟨e, rfl⟩ | ⟨r, -, rfl⟩ := State.attempt_cases hsection
    · exact Advances.same rfl rfl
    · exact Advances.copied rfl (Or.inl hrunning) (Or.inr (Or.inr ⟨_, rfl⟩))
  | stopCopy hrunning hs' =>
    subst hs'
    exact Advances.copied rfl (Or.inl hrunning) (Or.inr (Or.inl rfl))
  | endSession _ _ hs' =>
    subst hs'
    exact Advances.ended (Or.inr ⟨0, rfl⟩)
  | disable i source _ _ _ hsection =>
    obtain ⟨e, rfl⟩ | ⟨F, -, rfl⟩ := State.attempt_cases hsection
    · exact Advances.same rfl rfl
    · exact Advances.ended (Or.inr ⟨_, rfl⟩)
  | disableSkip i _ _ _ hs' =>
    subst hs'
    exact Advances.ended (Or.inr ⟨_, rfl⟩)
  | disabled i _ _ hs' =>
    subst hs'
    exact Advances.ended (Or.inl rfl)
  | error hs' =>
    subst hs'
    exact Advances.same rfl rfl
  | copier c a hc hcopier =>
    obtain ⟨hsession, ⟨c', hc'⟩ | hc'⟩ := copierStep_backup hcopier hc
    · exact Advances.copied hsession (Or.inr ⟨c, hc⟩) (Or.inr (Or.inr ⟨c', hc'⟩))
    · exact Advances.copied hsession (Or.inr ⟨c, hc⟩) (Or.inl hc')

theorem step_advances (hstep : Lifecycle.step hash b a = some b') : Advances b a b' := by
  obtain ⟨-, hopen | hclose | hop | hthread | hback⟩ := step_cases hstep
  · obtain ⟨-, hsession, hbackup⟩ := stepOpen_frame hopen
    exact Advances.same hsession hbackup
  · obtain ⟨-, -, -, hsession, -, hbackup, -⟩ := stepClose_frame hclose
    exact Advances.same hsession hbackup
  · obtain ⟨-, -, -, hsession, hbackup, -⟩ := stepFileOp_frame hop
    exact Advances.same hsession hbackup
  · obtain ⟨-, -, -, hsession, -, hbackup, -⟩ := stepThread_frame hthread
    exact Advances.same hsession hbackup
  · exact stepBackup_advances hback

/-- What the preparation has come past after a step it had come past before, but for the fds
of its own iteration; and the session is the same. -/
theorem past_back (hphase : s.prepared = succeeded s.prepared s.base.backup)
    (hstep : Lifecycle.step hash s.base a = some b') {fd : Nat}
    (hpast : Past ⟨b', succeeded s.prepared b'.backup⟩ fd) :
    b'.session = s.base.session ∧
      (Past s fd ∨ ∃ i, (∃ opened created, a = .prepareNext opened created) ∧
      s.base.backup = .preparing i ∧ i ≤ fd) := by
  cases step_advances hstep with
  | same hsession hbackup =>
    refine ⟨hsession, Or.inl ?_⟩
    simp only [Past, hbackup, ← hphase] at hpast
    exact hpast
  | started hzero hpreparing =>
    obtain ⟨j, hj⟩ := hpreparing
    obtain hprepared | ⟨i, hi, hlt⟩ := hpast
    · simp only [hj, succeeded, Bool.false_eq_true] at hprepared
    · rw [hzero i hi] at hlt
      omega
  | prepared i ha hi hsession =>
    refine ⟨hsession, ?_⟩
    by_cases hlt : fd < i
    · exact Or.inl (Or.inr ⟨i, hi, hlt⟩)
    · exact Or.inr ⟨i, ha, hi, Nat.not_lt.mp hlt⟩
  | copied hsession hbefore _ =>
    refine ⟨hsession, Or.inl (Or.inl ?_)⟩
    rw [hphase]
    obtain hrunning | ⟨c, hc⟩ := hbefore
    · rw [hrunning]
      rfl
    · rw [hc]
      rfl
  | ended hended =>
    obtain hidle | ⟨j, hj⟩ := hended
    · simp [Past, hidle, succeeded] at hpast
    · simp [Past, hj, succeeded] at hpast

theorem Past.not_disabling {fd : Nat} (h : Past s fd)
    (hphase : s.prepared = succeeded s.prepared s.base.backup) (i : Nat) :
    s.base.backup ≠ .disabling i := by
  intro hi
  obtain hprepared | ⟨j, hj, -⟩ := h
  · rw [hphase, hi] at hprepared
    cases hprepared
  · rw [hi] at hj
    cases hj

/-! ## Destinations -/

/-- An fd that is not being closed keeps the destination of its file, until the session
ends. -/
theorem destination_stays (hk : Known hash b) (hk' : Known hash b') (heffect : Effect b a b'.files)
    {fd : Nat} {d d' : Fd} (hd : b.fds fd = some d) (hd' : b'.fds fd = some d')
    (hp : d.stage.source = some p) (hp' : d'.stage.source = some p)
    (hopen : ∀ q, d.stage ≠ .closing q)
    (hrunning : ∀ i, b.backup ≠ .disabling i) (hdest : b.destination p ≠ none) :
    b'.destination p ≠ none := by
  obtain ⟨id, hid⟩ := Option.ne_none_iff_exists'.mp hdest
  have hkept := hk.base.destination_kept hk'.base heffect (h := .fd fd) (p := p)
    (by rw [heldBy_fd hd, hp]) (by rw [heldBy_fd hd', hp']) (fun hun => by
      obtain ⟨d₁, q, hd₁, hclosing⟩ := hun
      cases hd.symm.trans hd₁
      exact hopen q hclosing) hrunning hid
  rw [hkept]
  simp

/-- A file that needs a destination after a step needed one before, or has one. -/
theorem wants_back (hk : Known hash b) (heffect : Effect b a b'.files)
    (hstep : Lifecycle.step hash b a = some b') {D : DirectorySet} {fd : Nat} {d : Fd}
    (hd : b.fds fd = some d) (hp : d.stage.source = some p) (h : Wants b' D d p) :
    Wants b D d p ∨ b'.destination p ≠ none := by
  obtain ⟨q, hq, hn, hin, hex⟩ := h
  have hrenamed : ∀ old_path, b.files.name p = some old_path →
    (q = old_path → b.names q = some d.inode) →
      Wants b D d p ∨ b'.destination p ≠ none := by
    intro old_path hold hsame
    by_cases hne : q = old_path
    · exact Or.inl ⟨q, hsame hne, hne ▸ hold, hin, hex⟩
    · exact Or.inr (renamed_destination heffect hold hn hne)
  obtain hq₀ | ⟨old_path, hop, -, hq₀⟩ := name_back hk.space hstep hd hq
  · obtain hname | ⟨old_path, -, hname⟩ := hk.current.named fd d p q hd hp hq₀
    · exact Or.inl ⟨q, hq₀, hname, hin, hex⟩
    · exact hrenamed old_path hname fun _ => hq₀
  · obtain hname | ⟨old, hren, -⟩ := hk.current.named fd d p old_path hd hp hq₀
    · exact hrenamed old_path hname fun heq => by rw [heq]; exact hq₀
    · rw [hop] at hren
      cases hren

/-- The files of the fds in use that the preparation has come past have destinations, where
they need one. -/
def Covered (s : State) : Prop :=
  ∀ D fd d p, s.base.session = some D → Past s fd → s.base.fds fd = some d →
    d.stage = .usable p → Wants s.base D d p → s.base.destination p ≠ none

structure Inv (hash : Path → Nat) (s : State) : Prop where
  known : Known hash s.base
  gone : Gone s.base
  linked : Linked s.base
  phase : s.prepared = succeeded s.prepared s.base.backup
  covered : Covered s

theorem inv_initial (h : Initial s) : Inv hash s := by
  refine ⟨known_initial h.base, gone_initial h.base, linked_initial h.base, ?_,
    fun D fd d p hD => ?_⟩
  · rw [h.prepared, h.base.backup]
    rfl
  · rw [h.base.session] at hD
    cases hD

/-- The rest of `open` gives the file a destination. -/
theorem openCapture_covers (hk : Known hash b) (hlinked : Linked b)
    {D : DirectorySet} {fd : Nat} {d : Fd}
    (hok : CaptureOk hash b (.openCapture fd opened created))
    (hstep : Lifecycle.step hash b (.openCapture fd opened created) = some b')
    (hD : b.session = some D) (hd : b.fds fd = some d) (hstage : d.stage = .published p)
    (hwants : Wants b D d p) (hnone : b.destination p = none) : b'.destination p ≠ none := by
  obtain ⟨hname, rfl, rfl, dest, hdest, hin⟩ := hok D d p hD hd hstage hwants hnone
  obtain ⟨q, hq, -⟩ := hwants
  have hp : d.stage.source = some p := by rw [hstage]; rfl
  obtain ⟨F', hcapture, hcaptured⟩ := captureOpen_captured hk.base (i := .fd fd)
    (by rw [heldBy_fd hd, hp]) (fun f hf => hlinked fd d p q f hd hp hq hf) hname hdest hin
  obtain ⟨-, hopen | hclose | hop | hthread | hback⟩ := step_cases hstep
  · simp only [stepOpen, hd, hstage] at hopen
    split at hopen
    · cases hopen
    · simp only [hD, hcapture, State.attempt] at hopen
      cases hopen
      intro hnone
      exact hcaptured (Option.map_eq_none_iff.mp hnone)
  · cases hclose
  · cases hop
  · cases hthread
  · simp only [stepBackup] at hback
    split at hback
    · cases hback
    · cases hback

/-- An iteration that goes on has given the file a destination. -/
theorem prepare_next (hk : Known hash b) {D : DirectorySet} {F' : Files}
    {f : SourceFile} {q : Path} (hf : b.files.heap p = some f) (hlinked : f.unlinked = false)
    (hn : b.files.name p = some q) (hin : D.isPrefixOfRealpath q = true)
    (hrun : prepare b D p opened created = .ok (F', .next)) : F'.dest p ≠ none := by
  rw [prepare, hn, demand_some, ok_bind, if_neg (by simp [hin])] at hrun
  obtain ⟨dest, -, hrun⟩ := bind_eq_ok.mp hrun
  split at hrun
  · cases hrun
  · split at hrun
    · cases hrun
    · obtain ⟨ok, F₁, hcreate, -, -, g, hg, -, -, -, -, -, hsome, -⟩ :=
        hk.base.create (a := .error) hf dest created
      rw [hcreate, ok_bind] at hrun
      cases ok with
      | false => cases hrun
      | true =>
        cases hrun
        rw [Files.dest, hg, Option.bind_some]
        exact Option.isSome_iff_ne_none.mp (hsome rfl hlinked)

/-- The iteration that leaves the loop has met an excluded backup path. -/
theorem prepare_out {D : DirectorySet} {F' : Files}
    (hrun : prepare b D p opened created = .ok (F', .out)) :
    ∃ name dest, b.files.name p = some name ∧ D.translatePrefixOfRealpath name = some dest ∧
      D.fileIsExcluded dest = true := by
  obtain ⟨name, hname, hrun⟩ := bind_eq_ok.mp hrun
  split at hrun
  · cases hrun
  · obtain ⟨dest, hdest, hrun⟩ := bind_eq_ok.mp hrun
    refine ⟨name, dest, demand_eq_ok.mp hname, demand_eq_ok.mp hdest, ?_⟩
    split at hrun
    · rename_i hex
      exact hex
    · split at hrun
      · cases hrun
      · obtain ⟨⟨ok, F₁⟩, -, hrun⟩ := bind_eq_ok.mp hrun
        cases ok with
        | false => cases hrun
        | true => cases hrun

/-- After an iteration of the preparation that comes past the fd, or ends it with success,
the fd's file has a destination. -/
theorem prepareNext_covers (hinv : Inv hash s) (hk' : Known hash b')
    (heffect : Effect s.base (.prepareNext opened created) b'.files)
    (hok : CaptureOk hash s.base (.prepareNext opened created))
    (hstep : Lifecycle.step hash s.base (.prepareNext opened created) = some b')
    {D : DirectorySet} {i fd : Nat} {d : Fd} (hD : s.base.session = some D)
    (hi : s.base.backup = .preparing i) (hle : i ≤ fd) (hd : s.base.fds fd = some d)
    (hd' : b'.fds fd = some d) (hstage : d.stage = .usable p) (hwants : Wants s.base D d p)
    (hpast : Past ⟨b', succeeded s.prepared b'.backup⟩ fd) : b'.destination p ≠ none := by
  have hp : d.stage.source = some p := by rw [hstage]; rfl
  have hmapped : s.base.mapped fd = some p := by rw [mapped_of_fd hd, hstage]; rfl
  have hlt : fd < s.base.mapSize := hinv.known.size fd p hmapped
  have hunprepared : s.prepared = false := by
    rw [hinv.phase, hi]
    rfl
  have hstays : s.base.destination p ≠ none → b'.destination p ≠ none :=
    destination_stays hinv.known hk' heffect hd hd' hp hp (by simp [hstage]) (by simp [hi])
  have hstepb : stepBackup hash s.base (.prepareNext opened created) = some b' := by
    unfold Lifecycle.step at hstep
    split at hstep
    · cases hstep
    · exact hstep
  simp only [stepBackup, hi, hD] at hstepb
  rw [if_pos (lt_of_le_of_lt hle hlt)] at hstepb
  -- only the iteration for `fd` itself comes past it
  have hself : b'.backup = .preparing (i + 1) → fd = i := by
    intro hnext
    obtain hprepared | ⟨j, hj, hlt⟩ := hpast
    · simp only [hnext, succeeded, Bool.false_eq_true] at hprepared
    · cases hnext.symm.trans hj
      omega
  split at hstepb
  · rename_i source hsource
    obtain ⟨e, rfl⟩ | ⟨⟨files, result⟩, hrun, rfl⟩ := State.attempt_cases hstepb
    · obtain hprepared | ⟨j, hj, hltj⟩ := hpast
      · simp only [hi, succeeded, Bool.false_eq_true] at hprepared
      · rw [show s.base.backup = .preparing j from hj] at hi
        cases hi
        omega
    · cases result with
      | next =>
        have hfd : fd = i := hself rfl
        rw [← hfd, hmapped] at hsource
        cases hsource
        obtain ⟨q, hq, hn, hin, -⟩ := hwants
        obtain ⟨f, hf, -⟩ := live_of_name hn
        have hdest := prepare_next hinv.known hf (hinv.linked fd d p q f hd hp hq hf) hn hin hrun
        intro hnone
        exact hdest (Option.map_eq_none_iff.mp hnone)
      | out =>
        obtain ⟨name, dest, hname, hdest, hex⟩ := prepare_out hrun
        exact hstays
          (hok D i source name dest hD hi hsource hname hdest hex fd d p hle hd hstage hwants)
      | failed =>
        obtain hprepared | ⟨j, hj, -⟩ := hpast
        · rw [show succeeded s.prepared Backup.stopping = s.prepared from rfl,
            hunprepared] at hprepared
          cases hprepared
        · cases hj
  · rename_i hsource
    cases hstepb
    rw [← hself rfl, hmapped] at hsource
    cases hsource

theorem covered_step (hinv : Inv hash s) (hk' : Known hash b')
    (heffect : Effect s.base a b'.files) (hok : CaptureOk hash s.base a)
    (hstep : Lifecycle.step hash s.base a = some b') :
    Covered ⟨b', succeeded s.prepared b'.backup⟩ := by
  intro D fd d' p hD' hpast hd' hstage hwants'
  obtain ⟨hsession, hbefore⟩ := past_back hinv.phase hstep hpast
  have hD : s.base.session = some D := hsession ▸ hD'
  obtain hd | ⟨d, opened, created, rfl, hd, hpublished, rfl⟩ := usable_back hstep hd' hstage
  · have hp : d'.stage.source = some p := by rw [hstage]; rfl
    obtain hwants | hdone := wants_back hinv.known heffect hstep hd hp hwants'
    · obtain hpast₀ | ⟨i, ⟨opened, created, rfl⟩, hi, hle⟩ := hbefore
      · exact destination_stays hinv.known hk' heffect hd hd' hp hp (by simp [hstage])
          (hpast₀.not_disabling hinv.phase) (hinv.covered D fd d' p hD hpast₀ hd hstage hwants)
      · exact prepareNext_covers hinv hk' heffect hok hstep hD hi hle hd hd' hstage hwants hpast
    · exact hdone
  · -- the fd's `open` returns
    have hp : d.stage.source = some p := by rw [hpublished]; rfl
    obtain hwants | hdone := wants_back hinv.known heffect hstep hd hp hwants'
    · by_cases hnone : s.base.destination p = none
      · exact openCapture_covers hinv.known hinv.linked hok hstep hD hd hpublished hwants hnone
      · have hrunning : ∀ i, s.base.backup ≠ .disabling i := by
          obtain hpast₀ | ⟨i, ⟨opened, created, ha⟩, hi, hle⟩ := hbefore
          · exact hpast₀.not_disabling hinv.phase
          · cases ha
        exact destination_stays hinv.known hk' heffect hd hd' hp rfl (by simp [hpublished]) hrunning
          hnone
    · exact hdone

theorem succeeded_idem (prepared : Bool) (backup : Backup) :
    succeeded prepared backup = succeeded (succeeded prepared backup) backup := by
  cases backup with
  | _ => rfl

theorem inv_step (hinv : Inv hash s) (hok : PreparedOk hash s a) (hstep : step hash s a = some s') :
    Inv hash s' := by
  obtain ⟨b', hbase, rfl⟩ := Option.map_eq_some_iff.mp hstep
  obtain ⟨hk', heffect⟩ := hinv.known.step hok.1 hbase
  exact ⟨hk', gone_step hinv.gone hk'.base heffect hbase,
    linked_step hinv.linked hinv.known hinv.gone heffect hok.2 hbase,
    succeeded_idem s.prepared b'.backup, covered_step hinv hk' heffect hok.2 hbase⟩

/-! ## The main result -/

/-- In every run whose steps meet the condition, from the end of the preparation to the end
of the session: an fd in use has a source file with a destination, when its file has a name in a
source directory that is not excluded and no rename waits for its section. -/
theorem open_files_captured (hash : Path → Nat) (hinit : Initial s₀) {as : List Action}
    (hok : RunOk (step hash) (PreparedOk hash) s₀ as) (hrun : run (step hash) s₀ as = some s)
    (hprepared : s.prepared = true)
    (hop : ∀ old_path new_path, s.base.fileOp ≠ .renamed old_path new_path)
    {D : DirectorySet} (hD : s.base.session = some D) :
    ∀ fd d p q, s.base.fds fd = some d → d.stage = .usable p → s.base.names q = some d.inode →
      D.isPrefixOfRealpath q = true → D.excludeCopy q = false →
      s.base.mapped fd = some p ∧ s.base.destination p ≠ none := by
  have hinv : Inv hash s :=
    run_invariant (fun _ _ _ hs hok hstep => inv_step hs hok hstep) (inv_initial hinit) hok hrun
  intro fd d p q hd hstage hq hin hex
  have hname : s.base.files.name p = some q := by
    obtain hname | ⟨old_path, hren, -⟩ :=
      hinv.known.current.named fd d p q hd (by rw [hstage]; rfl) hq
    · exact hname
    · exact absurd hren (hop old_path q)
  refine ⟨by rw [mapped_of_fd hd, hstage]; rfl, ?_⟩
  exact hinv.covered D fd d p hD (Or.inl hprepared) hd hstage ⟨q, hq, hname, hin, hex⟩

end

/-! ## Runs -/

/-- A condition that can be computed: no rename, no excluded file, and every call succeeds. -/
def Plain (hash : Path → Nat) (s : State) : Action → Prop
  | .openAttach fd =>
    ∀ d ∈ s.base.fds fd, s.base.names d.path = some d.inode ∧
      match s.base.files.get hash d.path with
      | .ok (some p) => ∀ f ∈ s.base.files.heap p, f.unlinked = false
      | _ => True
  | .openCapture fd opened created =>
    opened = true ∧ created = true ∧ ∀ D ∈ s.base.session, ∀ d ∈ s.base.fds fd,
      s.base.names d.path ≠ none ∧
        match D.translatePrefixOfRealpath d.path with
        | some dest => D.fileIsExcluded dest = false
        | none => False
  | .prepareNext _ _ =>
    match s.base.backup with
    | .preparing i => ∀ D ∈ s.base.session, ∀ p ∈ s.base.mapped i, ∀ n ∈ s.base.files.name p,
        ∀ dest ∈ D.translatePrefixOfRealpath n, D.fileIsExcluded dest = false
    | _ => True
  | .renameCapture _ _ _ => False
  | _ => True

instance decidablePlain (hash : Path → Nat) (s : State) (a : Action) :
    Decidable (Plain hash s a) := by
  apply @Action.casesOn (fun a => Decidable (Plain hash s a)) a
  case openAttach =>
    intro fd
    unfold Plain
    have : ∀ d : Fd, Decidable (match s.base.files.get hash d.path with
        | .ok (some p) => ∀ f ∈ s.base.files.heap p, f.unlinked = false
        | _ => True) := by
      intro d
      split
      · infer_instance
      · infer_instance
    infer_instance
  case openCapture =>
    intro fd opened created
    unfold Plain
    have : ∀ (D : DirectorySet) (d : Fd), Decidable (match D.translatePrefixOfRealpath d.path with
        | some dest => D.fileIsExcluded dest = false
        | none => False) := by
      intro D d
      split
      · infer_instance
      · infer_instance
    infer_instance
  case prepareNext =>
    intro opened created
    unfold Plain
    dsimp only
    split
    · infer_instance
    · infer_instance
  case renameCapture => exact fun _ _ _ => isFalse id
  all_goals
    intros
    exact isTrue trivial

theorem preparedOk_of_plain {hash : Path → Nat} {s : State} {a : Action} (hns : Namespace s.base)
    (h : Plain hash s a) : PreparedOk hash s a := by
  cases a with
  | openAttach fd =>
    refine ⟨⟨trivial, fun d hd _ => Or.inr fun q hq => hns.inj q d.path d.inode hq (h d hd).1⟩, ?_⟩
    intro d p f hd _ hget hf
    have hmarks := (h d hd).2
    rw [hget] at hmarks
    exact hmarks f hf
  | openCapture fd opened created =>
    obtain ⟨hopened, hcreated, h⟩ := h
    refine ⟨⟨trivial, trivial⟩, fun D d p hD hd _ _ _ => ?_⟩
    obtain ⟨hname, hdest⟩ := h D hD d hd
    refine ⟨hname, hopened, hcreated, ?_⟩
    cases htranslate : D.translatePrefixOfRealpath d.path with
    | none =>
      rw [htranslate] at hdest
      exact hdest.elim
    | some dest =>
      rw [htranslate] at hdest
      exact ⟨dest, rfl, hdest⟩
  | prepareNext opened created =>
    refine ⟨⟨trivial, trivial⟩, fun D i source name dest hD hi hsource hname hdest hex => ?_⟩
    simp only [Plain, hi] at h
    rw [h D hD source hsource name hname dest hdest] at hex
    cases hex
  | renameCapture created renamed enoent => exact h.elim
  | _ => exact ⟨⟨trivial, trivial⟩, trivial⟩

/-- The file `/s/a`, and nothing tracked. -/
def start : State := ⟨Lifecycle.start true, false⟩

theorem initial_start : Initial start := ⟨Lifecycle.initial_start true, rfl⟩

/-- One file is open when a session starts, and the `open` of another is in flight. -/
def openedAcrossStart : List Action :=
  [.openReal 0 ['/', 's', '/', 'a'] false, .openAttach 0, .openPublish 0,
    .openReal 1 ['/', 's', '/', 'b'] true, .startSession slashS, .prepareNext true true,
    .openAttach 1, .prepareNext true true, .openCapture 0 true true, .openPublish 1,
    .openCapture 1 true true, .closeBegin 0, .closeUnhook 0]

theorem open_files_captured_openedAcrossStart :
    ∃ s d, run (step List.length) start openedAcrossStart = some s ∧ s.prepared = true ∧
      s.base.fds 1 = some d ∧ d.stage = .usable 1 ∧ s.base.destination 1 ≠ none := by
  have hplain : RunOk (step List.length) (Plain List.length) start openedAcrossStart := by
    decide +kernel
  have hok : RunOk (step List.length) (PreparedOk List.length) start openedAcrossStart := by
    refine @runOk_mono _ _ _ _ _ (fun s => Namespace s.base) (fun s a s' hs _ hstep => ?_)
      (fun s a => preparedOk_of_plain) _ _ (namespace_initial (Lifecycle.initial_start true)) hplain
    obtain ⟨b', hbase, rfl⟩ := Option.map_eq_some_iff.mp hstep
    exact namespace_step hs hbase
  have hrun : ∃ s d, run (step List.length) start openedAcrossStart = some s ∧
      s.prepared = true ∧ s.base.fileOp = .free ∧ s.base.session = some slashS ∧
      s.base.fds 1 = some d ∧ d.stage = .usable 1 ∧
      s.base.names ['/', 's', '/', 'b'] = some d.inode :=
    ⟨_, _, rfl, rfl, rfl, rfl, rfl, rfl, rfl⟩
  obtain ⟨s, d, hrun, hprepared, hop, hD, hd, hstage, hname⟩ := hrun
  obtain ⟨-, hdest⟩ := open_files_captured List.length initial_start hok hrun hprepared
    (by simp [hop]) hD 1 d 1 ['/', 's', '/', 'b'] hd hstage hname rfl rfl
  exact ⟨s, d, hrun, hprepared, hd, hstage, hdest⟩

/-- Names that end in `a` are excluded. -/
def withoutA : DirectorySet :=
  ⟨[(['/', 's'], ['/', 'd'])], fun p => decide (p.getLast? = some 'a')⟩

/-- Two files are open when a session starts, and the first of them is excluded. -/
def excludedBeforeOther : List Action :=
  [.openReal 0 ['/', 's', '/', 'a'] false, .openAttach 0, .openPublish 0, .openCapture 0 true true,
    .openReal 1 ['/', 's', '/', 'b'] true, .openAttach 1, .openPublish 1, .openCapture 1 true true,
    .startSession withoutA, .prepareNext true true]

/-- The preparation succeeds, and the other file has no destination. -/
theorem not_open_files_captured_excludedBeforeOther :
    ¬ ∀ hash s₀ as s D, Initial s₀ → run (step hash) s₀ as = some s → s.prepared = true →
      s.base.session = some D → ∀ fd d p q, s.base.fds fd = some d → d.stage = .usable p →
        s.base.names q = some d.inode → D.isPrefixOfRealpath q = true → D.excludeCopy q = false →
        s.base.destination p ≠ none := by
  intro h
  have hrun : ∃ s d, run (step List.length) start excludedBeforeOther = some s ∧
      s.prepared = true ∧ s.base.session = some withoutA ∧ s.base.fds 1 = some d ∧
      d.stage = .usable 1 ∧ s.base.names ['/', 's', '/', 'b'] = some d.inode ∧
      s.base.destination 1 = none :=
    ⟨_, _, rfl, rfl, rfl, rfl, rfl, rfl, rfl⟩
  obtain ⟨s, d, hrun, hprepared, hD, hd, hstage, hname, hnone⟩ := hrun
  exact h List.length start _ s withoutA initial_start hrun hprepared hD 1 d 1
    ['/', 's', '/', 'b'] hd hstage hname (by decide) (by decide) hnone

end TokuBackup.Lifecycle.Prepared
