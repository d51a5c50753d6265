import TokuBackup.Lifecycle.Counts

/-!
# Names of files

The namespace of the source: each file has one name at most, and the number of a file is
never used again. A source file keeps its name over every step, unless a rename of that name
is captured.
-/

namespace TokuBackup.Lifecycle

open Kernel Table Lib

section

variable {hash : Path → Nat} {exact : Prop} {s s' s₀ : State} {a : Action} {p : Ptr} {n : Path}

structure Namespace (s : State) : Prop where
  inj : ∀ p q i, s.names p = some i → s.names q = some i → p = q
  names : ∀ p i, s.names p = some i → i < s.freshInode
  fds : ∀ fd d, s.fds fd = some d → d.inode < s.freshInode

theorem namespace_initial (h : Initial s) : Namespace s :=
  ⟨h.names, h.fresh, fun fd d hd => by simp [h.fds] at hd⟩

theorem Namespace.same (h : Namespace s) (hnames : SameNames s s')
    (hfds : ∀ fd d', s'.fds fd = some d' → ∃ d, s.fds fd = some d ∧ d'.inode = d.inode) :
    Namespace s' := by
  refine ⟨?_, ?_, fun fd d' hd' => ?_⟩
  · rw [hnames.names]
    exact h.inj
  · rw [hnames.names, hnames.freshInode]
    exact h.names
  · obtain ⟨d, hd, hi⟩ := hfds fd d' hd'
    rw [hnames.freshInode, hi]
    exact h.fds fd d hd

/-- An fd of a file that has a number already. -/
theorem Namespace.openFd (h : Namespace s) {fd : Nat} {o : Option Fd}
    (ho : ∀ d, o = some d → d.inode < s.freshInode) (hnames : s'.names = s.names)
    (hfresh : s'.freshInode = s.freshInode) (hfds : s'.fds = Function.update s.fds fd o) :
    Namespace s' := by
  refine ⟨?_, ?_, fun fd' d hd => ?_⟩
  · rw [hnames]
    exact h.inj
  · rw [hnames, hfresh]
    exact h.names
  · rw [hfresh]
    obtain ⟨-, hnew⟩ | hold := fd_of_update hfds hd
    · exact ho d hnew
    · exact h.fds fd' d hold

/-- A file gets the name `n`, or a name is taken away. -/
theorem Namespace.rename (h : Namespace s) {o : Option Inode}
    (hinj : ∀ q i, o = some i → q ≠ n → s.names q ≠ some i)
    (hnames : s'.names = Function.update s.names n o)
    (hfresh : ∀ i, o = some i → i < s'.freshInode) (hle : s.freshInode ≤ s'.freshInode)
    (hfds : ∀ fd d, s'.fds fd = some d → d.inode < s'.freshInode) : Namespace s' := by
  refine ⟨fun q r i hq hr => ?_, fun q i hq => ?_, hfds⟩
  · rw [hnames, Function.update_apply] at hq hr
    split at hq
    · rename_i hqn
      split at hr
      · rename_i hrn
        rw [hqn, hrn]
      · rename_i hrn
        exact absurd hr (hinj r i hq hrn)
    · rename_i hqn
      split at hr
      · exact absurd hq (hinj q i hr hqn)
      · exact h.inj q r i hq hr
  · rw [hnames, Function.update_apply] at hq
    split at hq
    · exact hfresh i hq
    · exact lt_of_lt_of_le (h.names q i hq) hle

theorem namespace_opens (h : Namespace s) (hopen : Opens hash s a s') : Namespace s' := by
  cases hopen with
  | failed hnames hfds =>
    refine h.same hnames fun fd d' hd' => ?_
    rw [hfds] at hd'
    exact ⟨d', hd', rfl⟩
  | found fd path i _ hi hfds hnames hfresh =>
    refine h.openFd (fun d hd => ?_) hnames hfresh hfds
    cases hd
    exact h.names path i hi
  | new fd path hfd hnone _ hfds hnames hfresh =>
    refine h.rename (fun q i hi hq hqi => ?_) hnames (fun i hi => ?_) ?_ fun fd' d hd => ?_
    · cases hi
      exact lt_irrefl _ (h.names q _ hqi)
    · cases hi
      rw [hfresh]
      exact Nat.lt_succ_self _
    · rw [hfresh]
      exact Nat.le_succ _
    · rw [hfresh]
      obtain ⟨-, hnew⟩ | hold := fd_of_update hfds hd
      · cases hnew
        exact Nat.lt_succ_self _
      · exact Nat.lt_succ_of_lt (h.fds fd' d hold)
  | untracked fd d _ _ hfds hnames hfresh =>
    exact h.openFd (fun d hd => by cases hd) hnames hfresh hfds
  | attached fd d p _ hd _ _ _ hfds hnames =>
    refine h.openFd (fun d' hd' => ?_) hnames.names hnames.freshInode hfds
    cases hd'
    exact h.fds fd d hd
  | moved fd d stage hd _ hfds hnames hfresh =>
    refine h.openFd (fun d' hd' => ?_) hnames hfresh hfds
    cases hd'
    exact h.fds fd d hd

theorem namespace_operates (h : Namespace s) (hop : Operates hash s a s') (hfds : s'.fds = s.fds)
    (hfresh : s'.freshInode = s.freshInode) : Namespace s' := by
  have hsame : s'.names = s.names → Namespace s' := by
    intro hnames
    refine ⟨?_, ?_, ?_⟩
    · rw [hnames]
      exact h.inj
    · rw [hnames, hfresh]
      exact h.names
    · rw [hfds, hfresh]
      exact h.fds
  have hfds' : ∀ fd d, s'.fds fd = some d → d.inode < s'.freshInode := by
    rw [hfds, hfresh]
    exact h.fds
  cases hop with
  | failed hnames => exact hsame hnames.names
  | unlinkStart path _ _ hnames => exact hsame hnames
  | aborted _ _ hnames => exact hsame hnames
  | unlinked path _ _ hnames =>
    exact h.rename (fun q i hi => by cases hi) hnames (fun i hi => by cases hi) hfresh.ge hfds'
  | held path p _ _ hnames => exact hsame hnames
  | finished path p _ _ _ hnames => exact hsame hnames
  | renameStart old_path new_path _ _ _ _ hnames => exact hsame hnames
  | renamed old_path new_path _ _ _ hnames =>
    -- first the old name goes, then the new one is given
    have hmid : Namespace { s with names := Function.update s.names old_path none } :=
      h.rename (n := old_path) (o := none) (fun q i hi => by cases hi)
        rfl (fun i hi => by cases hi) le_rfl h.fds
    refine hmid.rename (fun q i hi _ hq => ?_) hnames (fun i hi => ?_) hfresh.ge hfds'
    · have hq : Function.update s.names old_path none q = some i := hq
      rw [Function.update_apply] at hq
      split at hq
      · cases hq
      · rename_i hne
        exact hne (h.inj q old_path i hq hi)
    · rw [hfresh]
      exact h.names old_path i hi
  | captured old_path new_path _ _ _ _ _ _ hnames => exact hsame hnames

theorem namespace_step (h : Namespace s) (hstep : step hash s a = some s') : Namespace s' := by
  have hsame : s'.fds = s.fds → SameNames s s' → Namespace s' := by
    intro hfds hnames
    refine h.same hnames fun fd d' hd' => ?_
    rw [hfds] at hd'
    exact ⟨d', hd', rfl⟩
  obtain ⟨-, hopen | hclose | hop | hthread | hback⟩ := step_cases hstep
  · exact namespace_opens h (stepOpen_opens hopen)
  · obtain ⟨hnames, hcloses, -⟩ := stepClose_frame hclose
    refine h.same hnames fun fd d' hd' => ?_
    obtain ⟨d, hd, -, hi, -⟩ := hcloses fd d' hd'
    exact ⟨d, hd, hi⟩
  · obtain ⟨hfds, hfresh, -⟩ := stepFileOp_frame hop
    exact namespace_operates h (stepFileOp_operates hop) hfds hfresh
  · obtain ⟨hnames, hfds, -⟩ := stepThread_frame hthread
    exact hsame hfds hnames
  · obtain ⟨hnames, hfds, -⟩ := stepBackup_frame hback
    exact hsame hfds hnames

/-! ## Names of source files -/

/-- A file that is live before and after a step keeps its name, or gets the new one of a
rename of the old one. -/
theorem Effect.name (h : Effect s a s'.files) (hn : s.files.name p = some n)
    (hlive : s'.files.heap p ≠ none) :
    s'.files.name p = some n ∨
      ∃ new_path, (∃ created renamed enoent, a = .renameCapture created renamed enoent) ∧
        s.fileOp = .renamed n new_path ∧ s'.files.name p = some new_path := by
  have hkeep : ∀ q o, s'.files.heap = Function.update s.files.heap q o →
      (p = q → o.bind SourceFile.fullPath = some n) → s'.files.name p = some n := by
    intro q o hheap hsame
    rw [Files.name_update hheap]
    split
    · rename_i hq
      exact hsame hq
    · exact hn
  have hname : ∀ {q f}, s.files.heap q = some f → p = q → f.fullPath = some n := by
    intro q f hf hq
    rw [← Files.name_of_heap hf, ← hq, hn]
  cases h with
  | same hheap =>
    refine Or.inl ?_
    rw [Files.name, hheap]
    exact hn
  | added q path hdead hheap =>
    refine Or.inl (hkeep q _ hheap fun hq => ?_)
    rw [hq, Files.name, hdead] at hn
    cases hn
  | counted q f m hf hheap =>
    refine Or.inl (hkeep q _ hheap fun hq => ?_)
    have hf := hname hf hq
    exact hf
  | deleted q f hf hone hheap =>
    refine Or.inl (hkeep q _ hheap fun hq => ?_)
    rw [hheap, hq, Function.update_self] at hlive
    exact absurd rfl hlive
  | created q f d hf hnone hheap =>
    refine Or.inl (hkeep q _ hheap fun hq => ?_)
    have hf := hname hf hq
    exact hf
  | unhooked h' q f hun hh' hf hone hheap =>
    refine Or.inl (hkeep q _ hheap fun hq => ?_)
    have hf := hname hf hq
    exact hf
  | disabled i q f hi hf hheap =>
    refine Or.inl (hkeep q _ hheap fun hq => ?_)
    have hf := hname hf hq
    exact hf
  | marked path q f d ha hop hf hmore hsame hheap =>
    refine Or.inl (hkeep q _ hheap fun hq => ?_)
    have hf := hname hf hq
    exact hf
  | renamed old_path new_path q f d ha hop hf hold hid hheap =>
    by_cases hq : p = q
    · have hf := hname hf hq
      rw [hold] at hf
      cases hf
      refine Or.inr ⟨new_path, ha, hop, ?_⟩
      rw [Files.name_update hheap, if_pos hq]
      rfl
    · exact Or.inl (hkeep q _ hheap fun h => absurd h hq)

end

end TokuBackup.Lifecycle
