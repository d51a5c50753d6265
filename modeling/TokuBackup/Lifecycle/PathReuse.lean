import TokuBackup.Lifecycle.Names

/-!
# Paths that are reused

The table finds a source file by its path, and a file that others still hold stays in the
table when it is unlinked. Without renames, and as long as nobody holds a file that is
unlinked and `open` finds at its path the file that it has opened, a source file stands for
one file of the source.
-/

namespace TokuBackup.Lifecycle

open Kernel Table Lib

/-- Nothing is renamed. -/
def NoRename : Action → Prop
  | .renameStart _ _ | .renameReal _ | .renameCapture _ _ _ => False
  | _ => True

/-- An unlink has the only reference to the source file, and `open` finds at its path the
file that it has opened, or none. -/
def ReuseOk (s : State) : Action → Prop
  | .unlinkFinish _ _ =>
    match s.fileOp with
    | .unlinkHeld _ source => ∀ f ∈ s.files.heap source, f.referenceCount ≤ 1
    | _ => True
  | .openAttach fd =>
    ∀ d ∈ s.fds fd, d.stage = .opened → s.names d.path = none ∨ s.names d.path = some d.inode
  | _ => True

/-- The real `unlink` of the path is done, the operation is not. -/
def FileOp.Removes (op : FileOp) (path : Path) : Prop :=
  op = .unlinked path ∨ ∃ p, op = .unlinkHeld path p

section

variable {hash : Path → Nat} {exact : Prop} {s s' s₀ : State} {a : Action} {p : Ptr}

/-! ## Files and paths -/

/-- A file is only ever found at the path by which its fds were opened. -/
structure Fixed (s : State) : Prop where
  start : ∀ old_path new_path, s.fileOp ≠ .renaming old_path new_path
  done : ∀ old_path new_path, s.fileOp ≠ .renamed old_path new_path
  place : ∀ fd d q, s.fds fd = some d → s.names q = some d.inode → q = d.path
  path : ∀ fd₁ fd₂ d₁ d₂, s.fds fd₁ = some d₁ → s.fds fd₂ = some d₂ → d₁.inode = d₂.inode →
    d₁.path = d₂.path
  creating : ∀ fd d, s.fileOp = .creating fd → s.fds fd = some d → s.names d.path = some d.inode
  gone : ∀ path, s.fileOp.Removes path → s.names path = none

theorem fixed_initial (h : Initial s) : Fixed s := by
  refine ⟨by simp [h.fileOp], by simp [h.fileOp], fun fd d q hd => ?_, fun fd₁ fd₂ d₁ d₂ hd => ?_,
    fun fd d hop => ?_, fun path hop => ?_⟩
  · rw [h.fds] at hd
    cases hd
  · rw [h.fds] at hd
    cases hd
  · rw [h.fileOp] at hop
    cases hop
  · rw [h.fileOp] at hop
    obtain hop | ⟨p, hop⟩ := hop
    · cases hop
    · cases hop

/-- No file gets or loses a name, and no new fd is opened. -/
theorem Fixed.congr (h : Fixed s) (hnames : s'.names = s.names)
    (hfds : ∀ fd d', s'.fds fd = some d' → ∃ d, s.fds fd = some d ∧ d'.path = d.path ∧
      d'.inode = d.inode)
    (hop : s'.fileOp = .free ∨ (∃ path, s'.fileOp = .unlinking path) ∨ s'.fileOp = s.fileOp) :
    Fixed s' := by
  have hop' : ∀ op, op ≠ .free → (∀ path, op ≠ .unlinking path) → s'.fileOp = op →
      s.fileOp = op := by
    intro op hfree hunlinking hs'
    obtain h | ⟨path, h⟩ | h := hop
    · exact absurd (hs'.symm.trans h) hfree
    · exact absurd (hs'.symm.trans h) (hunlinking path)
    · rw [← h, hs']
  refine ⟨fun old new hs' => ?_, fun old new hs' => ?_, fun fd d' q hd' hq => ?_,
    fun fd₁ fd₂ d₁' d₂' hd₁' hd₂' hi => ?_, fun fd d' hs' hd' => ?_, fun path hs' => ?_⟩
  · exact h.start old new (hop' _ (by simp) (by simp) hs')
  · exact h.done old new (hop' _ (by simp) (by simp) hs')
  · obtain ⟨d, hd, hpath, hi⟩ := hfds fd d' hd'
    rw [hpath]
    rw [hnames, hi] at hq
    exact h.place fd d q hd hq
  · obtain ⟨d₁, hd₁, hp₁, hi₁⟩ := hfds fd₁ d₁' hd₁'
    obtain ⟨d₂, hd₂, hp₂, hi₂⟩ := hfds fd₂ d₂' hd₂'
    rw [hp₁, hp₂]
    exact h.path fd₁ fd₂ d₁ d₂ hd₁ hd₂ (by rw [← hi₁, hi, hi₂])
  · obtain ⟨d, hd, hpath, hi⟩ := hfds fd d' hd'
    rw [hnames, hpath, hi]
    exact h.creating fd d (hop' _ (by simp) (by simp) hs') hd
  · rw [hnames]
    obtain hs' | ⟨p, hs'⟩ := hs'
    · exact h.gone path (Or.inl (hop' _ (by simp) (by simp) hs'))
    · exact h.gone path (Or.inr ⟨p, hop' _ (by simp) (by simp) hs'⟩)

/-- `open` finds a file. -/
theorem fixed_found (h : Fixed s) (hns : Namespace s) {fd : Nat} {path : Path} {i : Inode}
    (hfd : s.fds fd = none) (hi : s.names path = some i)
    (hfds : s'.fds = Function.update s.fds fd (some ⟨path, i, .opened⟩))
    (hnames : s'.names = s.names)
    (hop : s'.fileOp = s.fileOp ∨ s.fileOp = .free ∧ s'.fileOp = .creating fd) : Fixed s' := by
  have hop' : ∀ op, (∀ fd', op ≠ .creating fd') → s'.fileOp = op → s.fileOp = op := by
    intro op hne hs'
    obtain hsame | ⟨-, hnew⟩ := hop
    · rw [← hsame, hs']
    · exact absurd (hs'.symm.trans hnew) (hne fd)
  refine ⟨fun old new hs' => h.start old new (hop' _ (by simp) hs'),
    fun old new hs' => h.done old new (hop' _ (by simp) hs'), fun fd' d q hd hq => ?_,
    fun fd₁ fd₂ d₁ d₂ hd₁ hd₂ hsame => ?_, fun fd' d hs' hd => ?_, fun q hs' => ?_⟩
  · rw [hnames] at hq
    obtain ⟨-, hp, hdi⟩ | hd := fd_of_open hfds hd
    · rw [hp]
      exact hns.inj q path i (hdi ▸ hq) hi
    · exact h.place fd' d q hd hq
  · obtain ⟨-, hp₁, hi₁⟩ | hd₁ := fd_of_open hfds hd₁
    · obtain ⟨-, hp₂, hi₂⟩ | hd₂ := fd_of_open hfds hd₂
      · rw [hp₁, hp₂]
      · rw [hp₁]
        exact h.place fd₂ d₂ path hd₂ (by rw [hi, ← hsame, hi₁])
    · obtain ⟨-, hp₂, hi₂⟩ | hd₂ := fd_of_open hfds hd₂
      · rw [hp₂]
        exact (h.place fd₁ d₁ path hd₁ (by rw [hi, hsame, hi₂])).symm
      · exact h.path fd₁ fd₂ d₁ d₂ hd₁ hd₂ hsame
  · rw [hnames]
    obtain ⟨-, hp, hdi⟩ | hd' := fd_of_open hfds hd
    · rw [hp, hdi, hi]
    · obtain hold | ⟨-, hnew⟩ := hop
      · exact h.creating fd' d (by rw [← hold, hs']) hd'
      · rw [hnew] at hs'
        cases hs'
        rw [hfd] at hd'
        cases hd'
  · rw [hnames]
    obtain hs' | ⟨p, hs'⟩ := hs'
    · exact h.gone q (Or.inl (hop' _ (by simp) hs'))
    · exact h.gone q (Or.inr ⟨p, hop' _ (by simp) hs'⟩)

/-- `open` makes a file, which no other fd has. -/
theorem fixed_new (h : Fixed s) (hns : Namespace s) {fd : Nat} {path : Path}
    (hfd : s.fds fd = none)
    (hfds : s'.fds = Function.update s.fds fd (some ⟨path, s.freshInode, .opened⟩))
    (hnames : s'.names = Function.update s.names path (some s.freshInode))
    (hop : s'.fileOp = .creating fd) : Fixed s' := by
  have hold : ∀ fd' d, s.fds fd' = some d → d.inode ≠ s.freshInode :=
    fun fd' d hd => (hns.fds fd' d hd).ne
  refine ⟨by simp [hop], by simp [hop], fun fd' d q hd hq => ?_,
    fun fd₁ fd₂ d₁ d₂ hd₁ hd₂ hsame => ?_, fun fd' d hs' hd => ?_, fun q hs' => ?_⟩
  · rw [hnames, Function.update_apply] at hq
    obtain ⟨-, hp, hdi⟩ | hd := fd_of_open hfds hd
    · split at hq
      · rename_i hqp
        rw [hqp, hp]
      · exact absurd (hns.names q _ hq) (by rw [hdi]; exact lt_irrefl _)
    · split at hq
      · exact absurd (Option.some.inj hq).symm (hold fd' d hd)
      · exact h.place fd' d q hd hq
  · obtain ⟨-, hp₁, hi₁⟩ | hd₁ := fd_of_open hfds hd₁
    · obtain ⟨-, hp₂, hi₂⟩ | hd₂ := fd_of_open hfds hd₂
      · rw [hp₁, hp₂]
      · exact absurd (hsame.symm.trans hi₁) (hold fd₂ d₂ hd₂)
    · obtain ⟨-, hp₂, hi₂⟩ | hd₂ := fd_of_open hfds hd₂
      · exact absurd (hsame.trans hi₂) (hold fd₁ d₁ hd₁)
      · exact h.path fd₁ fd₂ d₁ d₂ hd₁ hd₂ hsame
  · rw [hop] at hs'
    cases hs'
    obtain ⟨-, hp, hdi⟩ | hd' := fd_of_open hfds hd
    · rw [hnames, hp, hdi, Function.update_self]
    · rw [hfd] at hd'
      cases hd'
  · rw [hop] at hs'
    obtain hs' | ⟨p, hs'⟩ := hs'
    · cases hs'
    · cases hs'

theorem fixed_opens (h : Fixed s) (hns : Namespace s) (hopen : Opens hash s a s') : Fixed s' := by
  cases hopen with
  | failed hnames hfds =>
    refine h.congr hnames.names (fun fd d' hd' => ?_) (Or.inr (Or.inr hnames.fileOp))
    rw [hfds] at hd'
    exact ⟨d', hd', rfl, rfl⟩
  | found fd path i hfd hi hfds hnames _ hop => exact fixed_found h hns hfd hi hfds hnames hop
  | new fd path hfd _ _ hfds hnames _ hop => exact fixed_new h hns hfd hfds hnames hop
  | untracked fd d _ _ hfds hnames hfresh hop =>
    refine h.congr hnames (fun fd' d' hd' => ?_) ?_
    · exact ⟨d', fd_of_erase hfds hd', rfl, rfl⟩
    · exact (FileOp.unlock_cases hop.symm).imp_right Or.inr
  | attached fd d p _ hd _ _ _ hfds hnames =>
    exact h.congr hnames.names (fun _ _ => fd_of_move hd hfds) (Or.inr (Or.inr hnames.fileOp))
  | moved fd d stage hd _ hfds hnames hfresh hop =>
    refine h.congr hnames (fun _ _ => fd_of_move hd hfds) ?_
    · obtain hop | hop := hop
      · exact Or.inr (Or.inr hop)
      · exact (FileOp.unlock_cases hop.symm).imp_right Or.inr

theorem fixed_operates (h : Fixed s) (hno : NoRename a) (hfds : s'.fds = s.fds)
    (hop : Operates hash s a s') : Fixed s' := by
  have hsame : ∀ fd d', s'.fds fd = some d' → ∃ d, s.fds fd = some d ∧ d'.path = d.path ∧
      d'.inode = d.inode := by
    intro fd d' hd'
    rw [hfds] at hd'
    exact ⟨d', hd', rfl, rfl⟩
  cases hop with
  | failed hnames => exact h.congr hnames.names hsame (Or.inr (Or.inr hnames.fileOp))
  | unlinkStart path _ hop hnames => exact h.congr hnames hsame (Or.inr (Or.inl ⟨path, hop⟩))
  | aborted _ hop hnames => exact h.congr hnames hsame (Or.inl hop)
  | unlinked path hold hop hnames =>
    refine ⟨by simp [hop], by simp [hop], fun fd d q hd hq => ?_, ?_, by simp [hop],
      fun q hs' => ?_⟩
    · rw [hfds] at hd
      rw [hnames, Function.update_apply] at hq
      split at hq
      · cases hq
      · exact h.place fd d q hd hq
    · rw [hfds]
      exact h.path
    · rw [hop] at hs'
      obtain hs' | ⟨p, hs'⟩ := hs'
      · cases hs'
        rw [hnames, Function.update_self]
      · cases hs'
  | held path p hold hop hnames =>
    refine ⟨by simp [hop], by simp [hop], ?_, ?_, by simp [hop], fun q hs' => ?_⟩
    · rw [hfds, hnames]
      exact h.place
    · rw [hfds]
      exact h.path
    · rw [hnames]
      rw [hop] at hs'
      obtain hs' | ⟨p', hs'⟩ := hs'
      · cases hs'
      · cases hs'
        exact h.gone path (Or.inl hold)
  | finished path p _ _ hop hnames => exact h.congr hnames hsame (Or.inl hop)
  | renameStart old_path new_path ha =>
    rw [ha] at hno
    exact hno.elim
  | renamed old_path new_path ha =>
    obtain ⟨ok, ha⟩ := ha
    rw [ha] at hno
    exact hno.elim
  | captured old_path new_path created renamed enoent ha =>
    rw [ha] at hno
    exact hno.elim

theorem fixed_step (h : Fixed s) (hns : Namespace s) (hno : NoRename a)
    (hstep : step hash s a = some s') : Fixed s' := by
  have hsame : s'.fds = s.fds → ∀ fd d', s'.fds fd = some d' → ∃ d, s.fds fd = some d ∧
      d'.path = d.path ∧ d'.inode = d.inode := by
    intro hfds fd d' hd'
    rw [hfds] at hd'
    exact ⟨d', hd', rfl, rfl⟩
  obtain ⟨-, hopen | hclose | hop | hthread | hback⟩ := step_cases hstep
  · exact fixed_opens h hns (stepOpen_opens hopen)
  · obtain ⟨hnames, hcloses, -⟩ := stepClose_frame hclose
    refine h.congr hnames.names (fun fd d' hd' => ?_) (Or.inr (Or.inr hnames.fileOp))
    obtain ⟨d, hd, hp, hi, -⟩ := hcloses fd d' hd'
    exact ⟨d, hd, hp, hi⟩
  · exact fixed_operates h hno (stepFileOp_frame hop).1 (stepFileOp_operates hop)
  · obtain ⟨hnames, hfds, -⟩ := stepThread_frame hthread
    exact h.congr hnames.names (hsame hfds) (Or.inr (Or.inr hnames.fileOp))
  · obtain ⟨hnames, hfds, -⟩ := stepBackup_frame hback
    exact h.congr hnames.names (hsame hfds) (Or.inr (Or.inr hnames.fileOp))

/-! ## Source files and files -/

/-- A source file that an fd or an unlink holds has the path as its name, no source file is
marked as unlinked, and the fds of one path with source files are on one file, the one that
has the path. -/
structure Owned (s : State) : Prop where
  named : ∀ fd d p, s.fds fd = some d → d.stage.source = some p → s.files.name p = some d.path
  held : ∀ path p, s.fileOp = .unlinkHeld path p → s.files.name p = some path
  current : ∀ fd d p, s.fds fd = some d → d.stage.source = some p →
    s.names d.path = some d.inode ∨ s.fileOp.Removes d.path
  same : ∀ fd₁ fd₂ d₁ d₂ p₁ p₂, s.fds fd₁ = some d₁ → s.fds fd₂ = some d₂ →
    d₁.stage.source = some p₁ → d₂.stage.source = some p₂ → d₁.path = d₂.path → d₁.inode = d₂.inode
  linked : ∀ p f, s.files.heap p = some f → f.unlinked = false

theorem owned_initial (h : Initial s) : Owned s := by
  refine ⟨fun fd d p hd => ?_, fun path p hop => ?_, fun fd d p hd => ?_,
    fun fd₁ fd₂ d₁ d₂ p₁ p₂ hd => ?_, fun p f hf => ?_⟩
  · rw [h.fds] at hd
    cases hd
  · rw [h.fileOp] at hop
    cases hop
  · rw [h.fds] at hd
    cases hd
  · rw [h.fds] at hd
    cases hd
  · rw [h.files] at hf
    cases hf

/-- Only an unlink that others outlive marks a source file. -/
theorem Effect.linked (h : Effect s a s'.files) (hok : ReuseOk s a)
    (hlinked : ∀ p f, s.files.heap p = some f → f.unlinked = false) :
    ∀ p f, s'.files.heap p = some f → f.unlinked = false := by
  have hupdate : ∀ q o, s'.files.heap = Function.update s.files.heap q o →
      (∀ g, o = some g → g.unlinked = false) →
      ∀ p f, s'.files.heap p = some f → f.unlinked = false := by
    intro q o hheap ho p f hf
    rw [hheap, Function.update_apply] at hf
    split at hf
    · exact ho f hf
    · exact hlinked p f hf
  cases h with
  | same hheap =>
    rw [hheap]
    exact hlinked
  | added q path hdead hheap =>
    refine hupdate q _ hheap fun g hg => ?_
    cases hg
    rfl
  | counted q f n hf hheap =>
    refine hupdate q _ hheap fun g hg => ?_
    cases hg
    exact hlinked q f hf
  | deleted q f hf hone hheap =>
    refine hupdate q _ hheap fun g hg => ?_
    cases hg
  | created q f d hf hnone hheap =>
    refine hupdate q _ hheap fun g hg => ?_
    cases hg
    exact hlinked q f hf
  | unhooked h' q f hun hh' hf hone hheap =>
    refine hupdate q _ hheap fun g hg => ?_
    cases hg
    exact hlinked q f hf
  | disabled i q f hi hf hheap =>
    refine hupdate q _ hheap fun g hg => ?_
    cases hg
    exact hlinked q f hf
  | marked path q f d ha hop hf hmore hsame hheap =>
    obtain ⟨created, unlinked, ha⟩ := ha
    rw [ha] at hok
    simp only [ReuseOk, hop, hf, Option.mem_some_iff, forall_eq'] at hok
    omega
  | renamed old_path new_path q f d ha hop hf hold hid hheap =>
    refine hupdate q _ hheap fun g hg => ?_
    cases hg
    exact hlinked q f hf

/-- A source file that is held before and after a step keeps its name. -/
theorem Fixed.name_kept (h : Fixed s) (hb' : Base hash exact s') (heffect : Effect s a s'.files)
    {n : Path} (hn : s.files.name p = some n) {i : Holder} (hheld : s'.heldBy i = some p) :
    s'.files.name p = some n := by
  obtain hsame | ⟨new_path, -, hop, -⟩ := heffect.name hn (hb'.held i p hheld)
  · exact hsame
  · exact absurd hop (h.done n new_path)

/-- A step after which the same fds have source files, or fewer. -/
theorem Owned.keep (ho : Owned s) (hfx : Fixed s) (hb' : Base hash exact s')
    (heffect : Effect s a s'.files) (hok : ReuseOk s a)
    (hfds : ∀ fd d' p, s'.fds fd = some d' → d'.stage.source = some p →
      ∃ d, s.fds fd = some d ∧ d'.path = d.path ∧ d'.inode = d.inode ∧ d.stage.source = some p)
    (hheld : ∀ path p, s'.fileOp = .unlinkHeld path p →
      s.fileOp = .unlinkHeld path p ∨ s'.files.name p = some path)
    (hcurrent : ∀ fd d p, s.fds fd = some d → d.stage.source = some p →
      s'.names d.path = some d.inode ∨ s'.fileOp.Removes d.path) : Owned s' := by
  refine ⟨fun fd d' p hd' hp => ?_, fun path p hop => ?_, fun fd d' p hd' hp => ?_,
    fun fd₁ fd₂ d₁' d₂' p₁ p₂ hd₁' hd₂' hp₁ hp₂ hpath => ?_, heffect.linked hok ho.linked⟩
  · obtain ⟨d, hd, hpath, -, hp'⟩ := hfds fd d' p hd' hp
    rw [hpath]
    exact hfx.name_kept hb' heffect (ho.named fd d p hd hp') (by rw [heldBy_fd hd', hp])
  · obtain hold | hnew := hheld path p hop
    · refine hfx.name_kept hb' heffect (i := .fileOp) (ho.held path p hold) ?_
      rw [State.heldBy, hop]
      rfl
    · exact hnew
  · obtain ⟨d, hd, hpath, hi, hp'⟩ := hfds fd d' p hd' hp
    rw [hpath, hi]
    exact hcurrent fd d p hd hp'
  · obtain ⟨d₁, hd₁, hpath₁, hi₁, hp₁'⟩ := hfds fd₁ d₁' p₁ hd₁' hp₁
    obtain ⟨d₂, hd₂, hpath₂, hi₂, hp₂'⟩ := hfds fd₂ d₂' p₂ hd₂' hp₂
    rw [hi₁, hi₂]
    refine ho.same fd₁ fd₂ d₁ d₂ p₁ p₂ hd₁ hd₂ hp₁' hp₂' ?_
    rw [← hpath₁, hpath, hpath₂]

theorem removes_unlock {op : FileOp} {fd : Nat} {path : Path} (h : op.Removes path) :
    (op.unlock fd).Removes path := by
  rw [FileOp.unlock, if_neg]
  · exact h
  · intro hop
    obtain h | ⟨p, h⟩ := h
    · rw [hop] at h
      cases h
    · rw [hop] at h
      cases h

/-- The fd gets the source file of its path, which the file that it has opened still has. -/
theorem owned_attached {fd : Nat} {d : Fd} (ho : Owned s) (hfx : Fixed s)
    (hb' : Base hash exact s') (heffect : Effect s a s'.files) (hok : ReuseOk s a)
    (ha : a = .openAttach fd) (hd : s.fds fd = some d) (hopened : d.stage = .opened)
    (hname : s.names d.path ≠ none) (hrun : s.files.getOrCreate hash d.path = .ok (p, s'.files))
    (hfds : s'.fds = Function.update s.fds fd (some { d with stage := .attached p }))
    (hnames : SameNames s s') : Owned s' := by
  have hcur : s.names d.path = some d.inode := by
    rw [ha] at hok
    exact (hok d hd hopened).resolve_left hname
  -- the new fd, or one that had a source file before
  have hcases : ∀ fd' d' q, s'.fds fd' = some d' → d'.stage.source = some q →
      d'.path = d.path ∧ d'.inode = d.inode ∧ q = p ∨
        s.fds fd' = some d' ∧ d'.stage.source = some q := by
    intro fd' d' q hd' hq
    obtain ⟨-, hnew⟩ | hold := fd_of_update hfds hd'
    · cases hnew
      exact Or.inl ⟨rfl, rfl, (Option.some.inj hq).symm⟩
    · exact Or.inr ⟨hold, hq⟩
  -- the file at the path is the one of every fd of the path with a source file
  have hother : ∀ fd' d' q, s.fds fd' = some d' → d'.stage.source = some q → d'.path = d.path →
      d'.inode = d.inode := by
    intro fd' d' q hd' hq hpath
    obtain hcur' | hrem := ho.current fd' d' q hd' hq
    · rw [hpath, hcur] at hcur'
      exact (Option.some.inj hcur').symm
    · rw [hpath] at hrem
      exact absurd (hfx.gone d.path hrem) hname
  refine ⟨fun fd' d' q hd' hq => ?_, fun path q hop => ?_, fun fd' d' q hd' hq => ?_,
    fun fd₁ fd₂ d₁ d₂ p₁ p₂ hd₁ hd₂ hp₁ hp₂ hpath => ?_, heffect.linked hok ho.linked⟩
  · obtain ⟨hpath, -, hqp⟩ | ⟨hold', hq'⟩ := hcases fd' d' q hd' hq
    · rw [hpath, hqp]
      exact Files.name_of_getOrCreate hrun
    · exact hfx.name_kept hb' heffect (ho.named fd' d' q hold' hq') (by rw [heldBy_fd hd', hq])
  · refine hfx.name_kept hb' heffect (i := .fileOp) (ho.held path q (hnames.fileOp ▸ hop)) ?_
    rw [State.heldBy, hop]
    rfl
  · rw [hnames.names, hnames.fileOp]
    obtain ⟨hpath, hi, -⟩ | ⟨hold', hq'⟩ := hcases fd' d' q hd' hq
    · rw [hpath, hi]
      exact Or.inl hcur
    · exact ho.current fd' d' q hold' hq'
  · obtain ⟨hpath₁, hi₁, -⟩ | ⟨hold₁, hq₁⟩ := hcases fd₁ d₁ p₁ hd₁ hp₁
    · obtain ⟨-, hi₂, -⟩ | ⟨hold₂, hq₂⟩ := hcases fd₂ d₂ p₂ hd₂ hp₂
      · rw [hi₁, hi₂]
      · rw [hi₁, hother fd₂ d₂ p₂ hold₂ hq₂ (by rw [← hpath, hpath₁])]
    · obtain ⟨hpath₂, hi₂, -⟩ | ⟨hold₂, hq₂⟩ := hcases fd₂ d₂ p₂ hd₂ hp₂
      · rw [hi₂, hother fd₁ d₁ p₁ hold₁ hq₁ (by rw [hpath, hpath₂])]
      · exact ho.same fd₁ fd₂ d₁ d₂ p₁ p₂ hold₁ hold₂ hq₁ hq₂ hpath

theorem owned_opens (ho : Owned s) (hfx : Fixed s) (hb' : Base hash exact s')
    (heffect : Effect s a s'.files) (hok : ReuseOk s a) (hopen : Opens hash s a s') : Owned s' := by
  have hold : ∀ fd (o : Option Fd), s'.fds = Function.update s.fds fd o →
      (∀ d p, o = some d → d.stage.source ≠ some p) → ∀ fd d' p, s'.fds fd = some d' →
      d'.stage.source = some p → ∃ d, s.fds fd = some d ∧ d'.path = d.path ∧ d'.inode = d.inode ∧
        d.stage.source = some p := by
    intro fd o hfds ho fd' d' p hd' hp
    exact ⟨d', fd_of_source hfds ho hd' hp, rfl, rfl, hp⟩
  cases hopen with
  | failed hnames hfds =>
    refine ho.keep hfx hb' heffect hok (fun fd d' p hd' hp => ?_) (fun path p hop => ?_) ?_
    · rw [hfds] at hd'
      exact ⟨d', hd', rfl, rfl, hp⟩
    · exact Or.inl (hnames.fileOp ▸ hop)
    · rw [hnames.names, hnames.fileOp]
      exact ho.current
  | found fd path i _ _ hfds hnames _ hop =>
    refine ho.keep hfx hb' heffect hok (hold fd _ hfds fun d p hd => ?_) (fun path p hs' => ?_)
      fun fd' d p hd hp => ?_
    · cases hd
      simp [FdStage.source]
    · obtain hop | ⟨-, hop⟩ := hop
      · exact Or.inl (hop ▸ hs')
      · rw [hop] at hs'
        cases hs'
    · rw [hnames]
      obtain hcur | hrem := ho.current fd' d p hd hp
      · exact Or.inl hcur
      · obtain hop | ⟨hfree, -⟩ := hop
        · exact Or.inr (hop ▸ hrem)
        · rw [hfree] at hrem
          obtain hrem | ⟨q, hrem⟩ := hrem
          · cases hrem
          · cases hrem
  | new fd path _ hnone hfree hfds hnames _ hop =>
    refine ho.keep hfx hb' heffect hok (hold fd _ hfds fun d p hd => ?_) (fun path p hs' => ?_)
      fun fd' d p hd hp => ?_
    · cases hd
      simp [FdStage.source]
    · rw [hop] at hs'
      cases hs'
    · obtain hcur | hrem := ho.current fd' d p hd hp
      · refine Or.inl ?_
        rw [hnames, Function.update_of_ne]
        · exact hcur
        · intro hpath
          rw [hpath, hnone] at hcur
          cases hcur
      · rw [hfree] at hrem
        obtain hrem | ⟨q, hrem⟩ := hrem
        · cases hrem
        · cases hrem
  | untracked fd d _ _ hfds hnames _ hop =>
    refine ho.keep hfx hb' heffect hok (hold fd none hfds fun d p hd => by cases hd)
      (fun path p hs' => ?_) fun fd' d p hd hp => ?_
    · rw [hop] at hs'
      obtain hfree | hsame := FileOp.unlock_cases hs'
      · cases hfree
      · exact Or.inl hsame.symm
    · rw [hnames, hop]
      exact (ho.current fd' d p hd hp).imp_right removes_unlock
  | moved fd d stage hd hmove hfds hnames _ hop =>
    refine ho.keep hfx hb' heffect hok (fun fd' d' p hd' hp => ?_) (fun path p hs' => ?_)
      fun fd' d p hd hp => ?_
    · obtain ⟨rfl, hnew⟩ | hold := fd_of_update hfds hd'
      · cases hnew
        exact ⟨d, hd, rfl, rfl, (source_of_move hmove).symm.trans hp⟩
      · exact ⟨d', hold, rfl, rfl, hp⟩
    · obtain hop | hop := hop
      · exact Or.inl (hop ▸ hs')
      · rw [hop] at hs'
        obtain hfree | hsame := FileOp.unlock_cases hs'
        · cases hfree
        · exact Or.inl hsame.symm
    · rw [hnames]
      obtain hop | hop := hop
      · rw [hop]
        exact ho.current fd' d p hd hp
      · rw [hop]
        exact (ho.current fd' d p hd hp).imp_right removes_unlock
  | attached fd d p ha hd hopened hname hrun hfds hnames =>
    exact owned_attached ho hfx hb' heffect hok ha hd hopened hname hrun hfds hnames

theorem owned_operates (ho : Owned s) (hfx : Fixed s) (hb : Base hash exact s)
    (hb' : Base hash exact s') (heffect : Effect s a s'.files) (hno : NoRename a)
    (hok : ReuseOk s a) (hfds : s'.fds = s.fds) (hop : Operates hash s a s') : Owned s' := by
  have hsame : ∀ fd d' p, s'.fds fd = some d' → d'.stage.source = some p →
      ∃ d, s.fds fd = some d ∧ d'.path = d.path ∧ d'.inode = d.inode ∧ d.stage.source = some p := by
    intro fd d' p hd' hp
    rw [hfds] at hd'
    exact ⟨d', hd', rfl, rfl, hp⟩
  -- the operation was at a point where every fd's file has its path
  have hcur : (∀ path, ¬ s.fileOp.Removes path) → ∀ fd d p, s.fds fd = some d →
      d.stage.source = some p → s.names d.path = some d.inode := by
    intro hnot fd d p hd hp
    exact (ho.current fd d p hd hp).resolve_right (hnot d.path)
  have hnot : ∀ op : FileOp, s.fileOp = op → (∀ path, op ≠ .unlinked path) →
      (∀ path p, op ≠ .unlinkHeld path p) → ∀ path, ¬ s.fileOp.Removes path := by
    intro op hs hu hh path hrem
    obtain hrem | ⟨p, hrem⟩ := hrem
    · exact hu path (hs ▸ hrem)
    · exact hh path p (hs ▸ hrem)
  cases hop with
  | failed hnames =>
    refine ho.keep hfx hb' heffect hok hsame (fun path p hop => Or.inl (hnames.fileOp ▸ hop)) ?_
    rw [hnames.names, hnames.fileOp]
    exact ho.current
  | unlinkStart path hfree hop hnames =>
    refine ho.keep hfx hb' heffect hok hsame (by simp [hop]) fun fd d p hd hp => Or.inl ?_
    rw [hnames]
    exact hcur (hnot _ hfree (by simp) (by simp)) fd d p hd hp
  | aborted hold hop hnames =>
    refine ho.keep hfx hb' heffect hok hsame (by simp [hop]) fun fd d p hd hp => Or.inl ?_
    rw [hnames]
    obtain ⟨path, hold⟩ | ⟨old, new, hold⟩ := hold
    · exact hcur (hnot _ hold (by simp) (by simp)) fd d p hd hp
    · exact hcur (hnot _ hold (by simp) (by simp)) fd d p hd hp
  | unlinked path hold hop hnames =>
    refine ho.keep hfx hb' heffect hok hsame (by simp [hop]) fun fd d p hd hp => ?_
    rw [hnames, hop]
    by_cases hpath : d.path = path
    · rw [hpath]
      exact Or.inr (Or.inl rfl)
    · rw [Function.update_of_ne hpath]
      exact Or.inl (hcur (hnot _ hold (by simp) (by simp)) fd d p hd hp)
  | held path p hold hop hnames hrun =>
    refine ho.keep hfx hb' heffect hok hsame (fun path' p' hop' => Or.inr ?_)
      fun fd d q hd hq => ?_
    · rw [hop] at hop'
      cases hop'
      exact Files.name_of_getOrCreate hrun
    · rw [hnames, hop]
      obtain hcur | hrem := ho.current fd d q hd hq
      · exact Or.inl hcur
      · rw [hold] at hrem
        obtain hrem | ⟨r, hrem⟩ := hrem
        · cases hrem
          exact Or.inr (Or.inr ⟨p, rfl⟩)
        · cases hrem
  | finished path p hold ha hop hnames =>
    refine ho.keep hfx hb' heffect hok hsame (by simp [hop]) fun fd d q hd hq => Or.inl ?_
    rw [hnames]
    obtain hcur | hrem := ho.current fd d q hd hq
    · exact hcur
    · rw [hold] at hrem
      obtain hrem | ⟨r, hrem⟩ := hrem
      · cases hrem
      · -- an fd with the path would hold the file as well
        cases hrem
        have hfd : s.heldBy (.fd fd) = some q := by rw [heldBy_fd hd, hq]
        have hfo : s.heldBy .fileOp = some p := by rw [State.heldBy, hold]; rfl
        obtain ⟨g, hg, hmemq, -⟩ := hb.live hfd
        obtain ⟨f, hf, hmemp, -⟩ := hb.live hfo
        have hqp : q = p := hb.rep.inj q p d.path hmemq hmemp (ho.named fd d q hd hq)
          (ho.held d.path p hold)
        rw [hqp] at hfd
        have htwo := hb.two_le hfd hfo (by simp) hf
        obtain ⟨created, unlinked, ha⟩ := ha
        rw [ha] at hok
        simp only [ReuseOk, hold, hf, Option.mem_some_iff, forall_eq'] at hok
        omega
  | renameStart old_path new_path ha =>
    rw [ha] at hno
    exact hno.elim
  | renamed old_path new_path ha =>
    obtain ⟨ok, ha⟩ := ha
    rw [ha] at hno
    exact hno.elim
  | captured old_path new_path created renamed enoent ha =>
    rw [ha] at hno
    exact hno.elim

theorem owned_step (ho : Owned s) (hfx : Fixed s) (hb : Base hash exact s)
    (hb' : Base hash exact s') (heffect : Effect s a s'.files) (hno : NoRename a)
    (hok : ReuseOk s a) (hstep : step hash s a = some s') : Owned s' := by
  have hsame : s'.fds = s.fds → SameNames s s' → Owned s' := by
    intro hfds hnames
    refine ho.keep hfx hb' heffect hok (fun fd d' p hd' hp => ?_)
      (fun path p hop => Or.inl (hnames.fileOp ▸ hop)) ?_
    · rw [hfds] at hd'
      exact ⟨d', hd', rfl, rfl, hp⟩
    · rw [hnames.names, hnames.fileOp]
      exact ho.current
  obtain ⟨-, hopen | hclose | hop | hthread | hback⟩ := step_cases hstep
  · exact owned_opens ho hfx hb' heffect hok (stepOpen_opens hopen)
  · obtain ⟨hnames, hcloses, -⟩ := stepClose_frame hclose
    refine ho.keep hfx hb' heffect hok (fun fd d' p hd' hp => ?_)
      (fun path p hop => Or.inl (hnames.fileOp ▸ hop)) ?_
    · obtain ⟨d, hd, hpath, hi, hsource⟩ := hcloses fd d' hd'
      exact ⟨d, hd, hpath, hi, hsource p hp⟩
    · rw [hnames.names, hnames.fileOp]
      exact ho.current
  · exact owned_operates ho hfx hb hb' heffect hno hok (stepFileOp_frame hop).1
      (stepFileOp_operates hop)
  · obtain ⟨hnames, hfds, -⟩ := stepThread_frame hthread
    exact hsame hfds hnames
  · obtain ⟨hnames, hfds, -⟩ := stepBackup_frame hback
    exact hsame hfds hnames

/-! ## The main result -/

/-- The condition on a step. -/
def Reuses (s : State) (a : Action) : Prop := NoRename a ∧ ReuseOk s a

theorem NoRename.renameOk (h : NoRename a) : RenameOk hash s a := by
  cases a with
  | renameCapture created renamed enoent => exact h.elim
  | _ => trivial

theorem reuse_run (hinit : Initial s₀) {as : List Action}
    (hok : RunOk (step hash) Reuses s₀ as) (hrun : run (step hash) s₀ as = some s) :
    Base hash False s ∧ Fixed s ∧ Owned s := by
  let Inv : State → Prop := fun s =>
    (Base hash False s ∧ OpNamed s) ∧ Namespace s ∧ Fixed s ∧ Owned s
  have hstep : ∀ s a s', Inv s → Reuses s a → step hash s a = some s' → Inv s' := by
    intro s a s' hs hok hstep
    obtain ⟨⟨hb, hop⟩, hns, hfx, ho⟩ := hs
    obtain ⟨hb', heffect⟩ := base_step hb hop.done hok.1.renameOk.fits False.elim hstep
    exact ⟨⟨hb', opNamed_step hop hstep⟩, namespace_step hns hstep,
      fixed_step hfx hns hok.1 hstep, owned_step ho hfx hb hb' heffect hok.1 hok.2 hstep⟩
  have hstart : Inv s₀ := ⟨⟨base_initial hinit, opNamed_initial hinit⟩, namespace_initial hinit,
    fixed_initial hinit, owned_initial hinit⟩
  obtain ⟨⟨hb, -⟩, -, hfx, ho⟩ := run_invariant hstep hstart hok hrun
  exact ⟨hb, hfx, ho⟩

/-- Two fds have the same source file exactly when they are on the same file. -/
theorem Owned.shared (ho : Owned s) (hfx : Fixed s) (hb : Base hash exact s) {fd₁ fd₂ : Nat}
    {d₁ d₂ : Fd} {p₁ p₂ : Ptr} (hd₁ : s.fds fd₁ = some d₁) (hd₂ : s.fds fd₂ = some d₂)
    (hp₁ : d₁.stage.source = some p₁) (hp₂ : d₂.stage.source = some p₂) :
    p₁ = p₂ ↔ d₁.inode = d₂.inode := by
  have hn₁ := ho.named fd₁ d₁ p₁ hd₁ hp₁
  have hn₂ := ho.named fd₂ d₂ p₂ hd₂ hp₂
  constructor
  · intro hp
    rw [hp, hn₂] at hn₁
    exact ho.same fd₁ fd₂ d₁ d₂ p₁ p₂ hd₁ hd₂ hp₁ hp₂ (Option.some.inj hn₁).symm
  · intro hi
    have hpath := hfx.path fd₁ fd₂ d₁ d₂ hd₁ hd₂ hi
    obtain ⟨-, -, hmem₁, -⟩ := hb.live (h := .fd fd₁) (by rw [heldBy_fd hd₁, hp₁])
    obtain ⟨-, -, hmem₂, -⟩ := hb.live (h := .fd fd₂) (by rw [heldBy_fd hd₂, hp₂])
    refine hb.rep.inj p₁ p₂ d₁.path hmem₁ hmem₂ hn₁ ?_
    rw [hn₂, hpath]

theorem captureOpen_captured (hb : Base hash exact s) {i : Holder} (hheld : s.heldBy i = some p)
    (hlinked : ∀ f, s.files.heap p = some f → f.unlinked = false) {D : DirectorySet}
    {path dest : Path} (hname : s.names path ≠ none)
    (hdest : D.translatePrefixOfRealpath path = some dest) (hin : D.fileIsExcluded dest = false) :
    ∃ F', captureOpen s D path p true true = .ok (F', false) ∧ F'.dest p ≠ none := by
  obtain ⟨f, hf, -⟩ := hb.live hheld
  obtain ⟨ok, F', hrun, -, -, g, hg, -, -, -, -, hok, hsome, -⟩ :=
    hb.create (a := .error) hf dest true
  have hinside : D.isPrefixOfRealpath path = true := by
    obtain ⟨index, hindex, -⟩ := Option.bind_eq_some_iff.mp hdest
    rw [DirectorySet.isPrefixOfRealpath, hindex]
    rfl
  have hokt : ok = true := by
    by_contra hno
    obtain ⟨hbad, -⟩ := hok (by simpa using hno)
    cases hbad
  refine ⟨F', ?_, ?_⟩
  · rw [captureOpen, if_neg hname, if_neg (by simp [hinside]), hdest, demand_some, ok_bind,
      if_neg (by simp [hin]), if_neg (by simp), hrun, hokt]
    rfl
  · rw [Files.dest, hg, Option.bind_some]
    exact Option.isSome_iff_ne_none.mp (hsome hokt (hlinked f hf))

/-- In every run without renames whose steps meet the condition: two fds with source files
have the same one exactly when they are on the same file; `get` returns no source file that
is marked as unlinked; and when `open` has made a new file in a source directory during a
session, not excluded, and every call succeeds, its source file has a destination. -/
theorem path_reuse (hash : Path → Nat) (hinit : Initial s₀) {as : List Action}
    (hok : RunOk (step hash) Reuses s₀ as) (hrun : run (step hash) s₀ as = some s) :
    (∀ fd₁ fd₂ d₁ d₂ p₁ p₂, s.fds fd₁ = some d₁ → s.fds fd₂ = some d₂ →
      d₁.stage.source = some p₁ → d₂.stage.source = some p₂ →
      (p₁ = p₂ ↔ d₁.inode = d₂.inode)) ∧
    (∀ n p f, s.files.get hash n = .ok (some p) → s.files.heap p = some f →
      f.unlinked = false) ∧
    ∀ fd d p D dest s', s.fileOp = .creating fd → s.fds fd = some d → d.stage = .published p →
      s.session = some D → D.translatePrefixOfRealpath d.path = some dest →
      D.fileIsExcluded dest = false → step hash s (.openCapture fd true true) = some s' →
      s'.mapped fd = some p ∧ s'.destination p ≠ none := by
  obtain ⟨hb, hfx, ho⟩ := reuse_run hinit hok hrun
  refine ⟨fun fd₁ fd₂ d₁ d₂ p₁ p₂ hd₁ hd₂ hp₁ hp₂ => ho.shared hfx hb hd₁ hd₂ hp₁ hp₂,
    fun n p f _ hf => ho.linked p f hf, fun fd d p D dest s' hop hd hstage hD hdest hin hstep => ?_⟩
  have hheld : s.heldBy (.fd fd) = some p := by rw [heldBy_fd hd, hstage]; rfl
  have hname : s.names d.path ≠ none := by rw [hfx.creating fd d hop hd]; simp
  obtain ⟨F', hcapture, hcaptured⟩ :=
    captureOpen_captured hb hheld (ho.linked p) hname hdest hin
  obtain ⟨-, hopen | hclose | hop' | hthread | hback⟩ := step_cases hstep
  · simp only [stepOpen, hd, hstage] at hopen
    split at hopen
    · cases hopen
    · simp only [hD, hcapture, State.attempt] at hopen
      cases hopen
      refine ⟨?_, ?_⟩
      · simp [State.mapped, State.moveFd, FdStage.mapped]
      · intro hnone
        exact hcaptured (Option.map_eq_none_iff.mp hnone)
  · cases hclose
  · cases hop'
  · cases hthread
  · simp only [stepBackup] at hback
    split at hback
    · cases hback
    · cases hback

end

def decidableUnlinkHeld {P : Ptr → Prop} [∀ source, Decidable (P source)] :
    ∀ op : FileOp, Decidable (match op with
      | .unlinkHeld _ source => P source
      | _ => True)
  | .unlinkHeld _ source => inferInstanceAs (Decidable (P source))
  | .free | .creating _ | .unlinking _ | .unlinked _ | .renaming _ _ | .renamed _ _ =>
    isTrue trivial

instance decidableReuses (s : State) (a : Action) : Decidable (Reuses s a) := by
  have hrename : Decidable (NoRename a) := by
    apply @Action.casesOn (fun a => Decidable (NoRename a)) a
    case renameStart => exact fun _ _ => isFalse id
    case renameReal => exact fun _ => isFalse id
    case renameCapture => exact fun _ _ _ => isFalse id
    all_goals
      intros
      exact isTrue trivial
  have hreuse : Decidable (ReuseOk s a) := by
    apply @Action.casesOn (fun a => Decidable (ReuseOk s a)) a
    case unlinkFinish =>
      intro created unlinked
      unfold ReuseOk
      dsimp only
      exact decidableUnlinkHeld s.fileOp
    case openAttach =>
      intro fd
      unfold ReuseOk
      infer_instance
    all_goals
      intros
      exact isTrue trivial
  exact inferInstanceAs (Decidable (NoRename a ∧ ReuseOk s a))

/-- During a backup a file is closed and unlinked, and a new one is made at its path. -/
def closedThenReused : List Action :=
  [.openReal 0 ['/', 's', '/', 'a'] false, .openAttach 0, .openPublish 0, .openCapture 0 true true,
    .startSession slashS, .prepareNext true true, .prepareNext true true,
    .closeBegin 0, .closeUnhook 0, .closeErase 0, .closeRelease 0, .closeReal 0,
    .unlinkStart ['/', 's', '/', 'a'], .unlinkReal true, .unlinkHold, .unlinkFinish true true,
    .openReal 0 ['/', 's', '/', 'a'] true, .openAttach 0, .openPublish 0]

theorem path_reuse_closedThenReused :
    ∃ s s', run (step List.length) (start true) closedThenReused = some s ∧
      step List.length s (.openCapture 0 true true) = some s' ∧
      s'.mapped 0 = some 2 ∧ s'.destination 2 ≠ none := by
  have hok : RunOk (step List.length) Reuses (start true) closedThenReused := by decide +kernel
  have hrun : ∃ s s' d, run (step List.length) (start true) closedThenReused = some s ∧
      step List.length s (.openCapture 0 true true) = some s' ∧ s.fileOp = .creating 0 ∧
      s.fds 0 = some d ∧ d.stage = .published 2 ∧ s.session = some slashS ∧
      d.path = ['/', 's', '/', 'a'] := ⟨_, _, _, rfl, rfl, rfl, rfl, rfl, rfl, rfl⟩
  obtain ⟨s, s', d, hrun, hstep, hop, hd, hstage, hsession, hpath⟩ := hrun
  obtain ⟨-, -, hcaptured⟩ := path_reuse List.length (initial_start true) hok hrun
  have hdest : slashS.translatePrefixOfRealpath d.path = some ['/', 'd', '/', 'a'] := by
    rw [hpath]
    rfl
  exact ⟨s, s', hrun, hstep, hcaptured 0 d 2 slashS _ s' hop hd hstage hsession hdest rfl hstep⟩

/-- A file is unlinked while an fd is open on it, and a new one is made at its path. -/
def openThenReused : List Action :=
  [.openReal 0 ['/', 's', '/', 'a'] false, .openAttach 0, .openPublish 0, .openCapture 0 true true,
    .unlinkStart ['/', 's', '/', 'a'], .unlinkReal true, .unlinkHold, .unlinkFinish true true,
    .openReal 1 ['/', 's', '/', 'a'] true, .openAttach 1, .openPublish 1, .openCapture 1 true true]

/-- The new file gets the source file of the old one. -/
theorem not_path_reuse_openThenReused :
    ¬ ∀ hash s₀ as s, Initial s₀ → (∀ a ∈ as, NoRename a) → run (step hash) s₀ as = some s →
      ∀ fd₁ fd₂ d₁ d₂ p₁ p₂, s.fds fd₁ = some d₁ → s.fds fd₂ = some d₂ →
        d₁.stage = .usable p₁ → d₂.stage = .usable p₂ → (p₁ = p₂ ↔ d₁.inode = d₂.inode) := by
  intro h
  have hrun : ∃ s d₁ d₂, run (step List.length) (start true) openThenReused = some s ∧
      s.fds 0 = some d₁ ∧ s.fds 1 = some d₂ ∧ d₁.stage = .usable 0 ∧ d₂.stage = .usable 0 ∧
      d₁.inode = 0 ∧ d₂.inode = 1 := ⟨_, _, _, rfl, rfl, rfl, rfl, rfl, rfl, rfl⟩
  obtain ⟨s, d₁, d₂, hrun, hd₁, hd₂, hp₁, hp₂, hi₁, hi₂⟩ := hrun
  have hno : ∀ a ∈ openThenReused, NoRename a := by simp [openThenReused, NoRename]
  have hiff := h _ _ _ s (initial_start true) hno hrun 0 1 d₁ d₂ 0 0 hd₁ hd₂ hp₁ hp₂
  rw [hi₁, hi₂] at hiff
  exact absurd (hiff.mp rfl) (by decide)

end TokuBackup.Lifecycle
