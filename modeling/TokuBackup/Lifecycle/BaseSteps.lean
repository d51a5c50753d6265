import TokuBackup.Lifecycle.Base
import TokuBackup.Lifecycle.Steps
import TokuBackup.Table.Transient

/-!
# Every step keeps the references

One lemma for each section and each step that touches the files; the other steps move an
fd, an operation or the backup thread on without moving a reference.
-/

namespace TokuBackup.Lifecycle

open Kernel Table Lib

/-- A captured rename brings no second file of one name into the table, takes no file that
others hold out of it, and leaves no reference behind: no file of the table has the new
name; when the table has a file of the old name, the destination is renamed and there is
one, or it can be created; when it has none, the destination can be created. -/
def RenameOk (hash : Path → Nat) (s : State) : Action → Prop
  | .renameCapture created renamed _ =>
    match s.fileOp, s.session with
    | .renamed old_path new_path, some D =>
      D.isPrefixOfRealpath old_path = true → D.isPrefixOfRealpath new_path = true →
        (new_path = old_path ∨ s.files.get hash new_path = .ok none) ∧
          match s.files.get hash old_path with
          | .ok (some target) => renamed = true ∧ (s.destination target = none → created = true)
          | _ => created = true
    | _, _ => True
  | _ => True

/-- What a captured rename needs: the new name may be in the table when the old one is not,
for then the target is only made for the rename. -/
def RenameFits (hash : Path → Nat) (s : State) : Action → Prop
  | .renameCapture created renamed _ =>
    match s.fileOp, s.session with
    | .renamed old_path new_path, some D =>
      D.isPrefixOfRealpath old_path = true → D.isPrefixOfRealpath new_path = true →
        let fresh := new_path = old_path ∨ s.files.get hash new_path = .ok none
        match s.files.get hash old_path with
        | .ok (some target) =>
          fresh ∧ renamed = true ∧ (s.destination target = none → created = true)
        | _ => created = true ∧ (fresh ∨ renamed = true)
    | _, _ => True
  | _ => True

theorem RenameOk.fits {hash : Path → Nat} {s : State} {a : Action} (h : RenameOk hash s a) :
    RenameFits hash s a := by
  cases a with
  | renameCapture created renamed enoent =>
    simp only [RenameOk] at h
    simp only [RenameFits]
    split
    · rename_i old_path new_path D hop hsession
      intro hold hnew
      simp only [hop, hsession] at h
      obtain ⟨hfresh, h⟩ := h hold hnew
      cases hget : s.files.get hash old_path with
      | error e =>
        rw [hget] at h
        exact ⟨h, Or.inl hfresh⟩
      | ok found =>
        cases found with
        | none =>
          rw [hget] at h
          exact ⟨h, Or.inl hfresh⟩
        | some target =>
          rw [hget] at h
          exact ⟨hfresh, h⟩
    · trivial
  | _ => trivial

/-- A captured unlink can create the destination, if there is none. -/
def UnlinkOk (s : State) : Action → Prop
  | .unlinkFinish created _ =>
    match s.fileOp with
    | .unlinkHeld path source =>
      (s.shouldCaptureUnlink path).isSome → s.destination source = none → created = true
    | _ => True
  | _ => True

/-! ## Effects

What a step can do to the objects: nothing, or one change of one object. -/

/-- The holder is about to remove the destination of its file. -/
def State.Unhooking (s : State) : Holder → Prop
  | .fd fd => ∃ d p, s.fds fd = some d ∧ d.stage = .closing p
  | .copier => ∃ c, s.backup = .copying c ∧ c.pc = .copied
  | .fileOp => False

inductive Effect (s : State) (a : Action) (F' : Files) : Prop where
  | same : F'.heap = s.files.heap → Effect s a F'
  /-- A new file is made for the path. -/
  | added (p : Ptr) (path : Path) : s.files.heap p = none →
      F'.heap = Function.update s.files.heap p (some ⟨some path, 1, false, none⟩) → Effect s a F'
  /-- A reference is taken or given back. -/
  | counted (p : Ptr) (f : SourceFile) (n : Nat) : s.files.heap p = some f →
      F'.heap = Function.update s.files.heap p (some { f with referenceCount := n }) → Effect s a F'
  /-- The last reference is given back. -/
  | deleted (p : Ptr) (f : SourceFile) : s.files.heap p = some f → f.referenceCount = 1 →
      F'.heap = Function.update s.files.heap p none → Effect s a F'
  | created (p : Ptr) (f : SourceFile) (d : DestinationFile) : s.files.heap p = some f →
      f.destinationFile = none → F'.heap = Function.update s.files.heap p
        (some { f with destinationFile := some d }) → Effect s a F'
  /-- A holder removes the destination, having the only reference. -/
  | unhooked (h : Holder) (p : Ptr) (f : SourceFile) : s.Unhooking h → s.heldBy h = some p →
      s.files.heap p = some f → f.referenceCount ≤ 1 → F'.heap = Function.update s.files.heap p
        (some { f with destinationFile := none }) → Effect s a F'
  /-- The session's end removes the destination. -/
  | disabled (i : Nat) (p : Ptr) (f : SourceFile) : s.backup = .disabling i →
      s.files.heap p = some f → F'.heap = Function.update s.files.heap p
        (some { f with destinationFile := none }) → Effect s a F'
  /-- `unlink` marks a file that others still hold. -/
  | marked (path : Path) (p : Ptr) (f : SourceFile) (d : Option DestinationFile) :
      (∃ created unlinked, a = .unlinkFinish created unlinked) → s.fileOp = .unlinkHeld path p →
        s.files.heap p = some f → 1 < f.referenceCount →
      (f.destinationFile.isSome → d = f.destinationFile) →
      F'.heap = Function.update s.files.heap p (some { f with
        referenceCount := f.referenceCount - 1
        unlinked := true
        destinationFile := d }) → Effect s a F'
  | renamed (old_path new_path : Path) (p : Ptr) (f : SourceFile) (d : DestinationFile) :
      (∃ created renamed enoent, a = .renameCapture created renamed enoent) →
        s.fileOp = .renamed old_path new_path → s.files.heap p = some f →
      f.fullPath = some old_path →
      (∀ d', f.destinationFile = some d' → d.id = d'.id) →
      F'.heap = Function.update s.files.heap p (some { f with
        fullPath := some new_path
        destinationFile := some d }) → Effect s a F'

section

variable {hash : Path → Nat} {exact : Prop} {s s' : State} {a : Action} {p : Ptr}
  {f g : SourceFile}

/-- A change of one object that is neither its name nor its count. -/
theorem Base.touch (hb : Base hash exact s) (hf : s.files.heap p = some f) (g : SourceFile)
    (hname : g.fullPath = f.fullPath) (hcount : g.referenceCount = f.referenceCount) :
    Base hash exact { s with files := s.files.set p (some g) } :=
  hb.modify hf rfl rfl rfl hname hcount (fun _ => rfl) rfl

theorem tryToRemoveDestination_same (f : SourceFile) :
    f.tryToRemoveDestination.fullPath = f.fullPath ∧
      f.tryToRemoveDestination.referenceCount = f.referenceCount := by
  rw [SourceFile.tryToRemoveDestination]
  split_ifs <;> exact ⟨rfl, rfl⟩

theorem Base.tryToRemoveDestination (hb : Base hash exact s) (hp : s.files.heap p ≠ none) :
    ∃ f F', s.files.heap p = some f ∧ s.files.tryToRemoveDestination p = .ok F' ∧
      F' = s.files.set p (some f.tryToRemoveDestination) ∧
      Base hash exact { s with files := F' } := by
  obtain ⟨f, hf⟩ := Option.ne_none_iff_exists'.mp hp
  refine ⟨f, _, hf, ?_, rfl, ?_⟩
  · rw [Files.tryToRemoveDestination, hf, demand_some, ok_bind, Files.modify_of_heap hf]
    rfl
  · exact hb.touch hf _ (tryToRemoveDestination_same f).1 (tryToRemoveDestination_same f).2

/-- Removing a destination by a holder, or at the session's end. -/
theorem Base.unhook (hb : Base hash exact s) (hp : s.files.heap p ≠ none)
    (hwho : (∃ h, s.Unhooking h ∧ s.heldBy h = some p) ∨ ∃ i, s.backup = .disabling i) :
    ∃ F', s.files.tryToRemoveDestination p = .ok F' ∧ Effect s a F' ∧
      Base hash exact { s with files := F' } := by
  obtain ⟨f, hf⟩ := Option.ne_none_iff_exists'.mp hp
  refine ⟨s.files.set p (some f.tryToRemoveDestination), ?_, ?_, ?_⟩
  · rw [Files.tryToRemoveDestination, hf, demand_some, ok_bind, Files.modify_of_heap hf]
    rfl
  · rw [SourceFile.tryToRemoveDestination]
    split
    · refine Effect.same ?_
      rw [Files.set_heap, ← hf, Function.update_eq_self]
    · split
      · refine Effect.same ?_
        rw [Files.set_heap, ← hf, Function.update_eq_self]
      · rename_i hone
        rcases hwho with ⟨h, hun, hh⟩ | ⟨i, hi⟩
        · exact Effect.unhooked h p f hun hh hf (by omega) rfl
        · exact Effect.disabled i p f hi hf rfl
  · exact hb.touch hf _ (tryToRemoveDestination_same f).1 (tryToRemoveDestination_same f).2

/-- Creating a destination. -/
theorem Base.create (hb : Base hash exact s) (hf : s.files.heap p = some f) (path : Path)
    (created : Bool) :
    ∃ ok F', s.files.tryToCreateDestinationFile p path created = .ok (ok, F') ∧ Effect s a F' ∧
      Base hash exact { s with files := F' } ∧
      ∃ g, F'.heap p = some g ∧ g.fullPath = f.fullPath ∧ g.unlinked = f.unlinked ∧
        g.referenceCount = f.referenceCount ∧
        (f.destinationFile.isSome → g.destinationFile = f.destinationFile) ∧
        (ok = false → created = false ∧ f.destinationFile = none) ∧
        (ok = true → f.unlinked = false → g.destinationFile.isSome) ∧
        F'.heap = Function.update s.files.heap p (some g) := by
  obtain ⟨ok, F', hrun⟩ := Files.tryToCreateDestinationFile_live hf path created
  obtain ⟨f', hf', hfresh, htable, hcases⟩ := Files.tryToCreateDestinationFile_heap hrun
  rw [hf] at hf'
  cases hf'
  refine ⟨ok, F', hrun, ?_⟩
  rcases hcases with ⟨rfl, hok, hno⟩ | ⟨hok, hlinked, hnone, -, hheap⟩
  · refine ⟨Effect.same rfl, hb, f, hf, rfl, rfl, rfl, fun _ => rfl, hno, fun ho hl => ?_, ?_⟩
    · refine (hok ho).resolve_left ?_
      rw [hl]
      simp
    · rw [← hf, Function.update_eq_self]
  · refine ⟨Effect.created p f _ hf hnone hheap, ?_,
      { f with destinationFile := some ⟨s.files.freshDestination, path⟩ }, ?_, rfl, rfl, rfl,
      fun hsome => ?_, fun hno => ?_, fun _ _ => rfl, hheap⟩
    · exact hb.modify hf hheap htable hfresh rfl rfl (fun _ => rfl) rfl
    · rw [hheap, Function.update_self]
    · rw [hnone] at hsome
      cases hsome
    · rw [hok] at hno
      cases hno

/-- `get_or_create` for a holder that has no reference yet. -/
theorem Base.getOrCreate (hb : Base hash exact s) (n : Path) {h : Holder}
    (hfree : s.heldBy h = none) :
    ∃ p F', s.files.getOrCreate hash n = .ok (p, F') ∧ Effect s a F' ∧ F'.name p = some n ∧
      ∀ s' : State, s'.files = F' → s'.heldBy h = some p →
        (∀ h', h' ≠ h → s'.heldBy h' = s.heldBy h') → s'.fault = s.fault → Base hash exact s' := by
  obtain ⟨p, F', hrun, hbase⟩ := hb.acquire n hfree
  obtain ⟨-, ⟨f, hf, hname, rfl⟩ | ⟨rfl, -, hheap⟩⟩ := Files.getOrCreate_heap hrun
  · refine ⟨p, _, hrun, Effect.counted p f _ hf rfl, ?_, hbase⟩
    rw [Files.name_set, if_pos rfl]
    exact hname
  · refine ⟨s.files.fresh, F', hrun, Effect.added _ n ?_ hheap, ?_, hbase⟩
    · by_contra hlive
      obtain ⟨f, hf⟩ := Option.ne_none_iff_exists'.mp hlive
      exact absurd (hb.fresh _ f hf) (lt_irrefl _)
    · rw [Files.name_update hheap, if_pos rfl]
      rfl

/-- `try_to_remove` by a holder. -/
theorem Base.tryToRemove (hb : Base hash exact s) {h : Holder} (hp : s.heldBy h = some p) :
    ∃ F', s.files.tryToRemove hash p = .ok F' ∧ Effect s a F' ∧
      ∀ s' : State, s'.files = F' → s'.heldBy h = none →
        (∀ h', h' ≠ h → s'.heldBy h' = s.heldBy h') → s'.fault = s.fault → Base hash exact s' := by
  obtain ⟨F', hrun, hbase⟩ := hb.release hp
  obtain ⟨-, -, f, hf, -, ⟨-, rfl⟩ | ⟨hone, hheap⟩⟩ := Files.tryToRemove_heap hrun
  · exact ⟨_, hrun, Effect.counted p f _ hf rfl, hbase⟩
  · exact ⟨F', hrun, Effect.deleted p f hf hone hheap, hbase⟩

/-! ## The sections -/

theorem Base.captureOpen (hb : Base hash exact s) {h : Holder} (hp : s.heldBy h = some p)
    (D : DirectorySet) (path : Path) (opened created : Bool) :
    Yields (fun e => e ≠ .check)
      (fun r => Effect s a r.1 ∧ Base hash exact { s with files := r.1 })
      (captureOpen s D path p opened created) := by
  obtain ⟨f, hf, -⟩ := hb.live hp
  have hsame : ∀ b : Bool, Effect s a (s.files, b).1 ∧
      Base hash exact { s with files := (s.files, b).1 } := fun b => ⟨Effect.same rfl, hb⟩
  rw [Lifecycle.captureOpen]
  split
  · exact hsame false
  split
  · exact hsame false
  refine yields_bind (yields_demand (by simp)) fun name _ => ?_
  split
  · exact hsame false
  split
  · exact hsame false
  obtain ⟨ok, F', hrun, heffect, hbase, -⟩ := hb.create hf name created
  rw [hrun]
  exact ⟨heffect, hbase⟩

theorem Base.prepare (hb : Base hash exact s) (hp : s.files.heap p ≠ none)
    (D : DirectorySet) (opened created : Bool) :
    Yields (fun e => e ≠ .check)
      (fun r => Effect s a r.1 ∧ Base hash exact { s with files := r.1 })
      (prepare s D p opened created) := by
  obtain ⟨f, hf⟩ := Option.ne_none_iff_exists'.mp hp
  rw [Lifecycle.prepare]
  refine yields_bind (yields_demand (by simp)) fun name _ => ?_
  split
  · exact ⟨Effect.same rfl, hb⟩
  refine yields_bind (yields_demand (by simp)) fun file_name _ => ?_
  split
  · exact ⟨Effect.same rfl, hb⟩
  split
  · exact ⟨Effect.same rfl, hb⟩
  obtain ⟨ok, F', hrun, heffect, hbase, -⟩ := hb.create hf file_name created
  rw [hrun]
  exact ⟨heffect, hbase⟩

theorem Base.createDestination (hb : Base hash exact s) {c : Copier} (hc : s.backup = .copying c)
    (created : Bool) :
    Yields (fun e => e ≠ .check)
      (fun r => Effect s a r.1 ∧ Base hash exact { s with files := r.1 } ∧
        ∀ dest, r.2 = .copying dest →
          State.destination { s with files := r.1 } c.file = some dest)
      (createDestination s c created) := by
  have hp : s.heldBy .copier = some c.file := by rw [State.heldBy, hc]; rfl
  obtain ⟨f, hf, -⟩ := hb.live hp
  rw [Lifecycle.createDestination]
  split
  · exact ⟨Effect.same rfl, hb, by simp⟩
  obtain ⟨ok, F', hrun, heffect, hbase, g, hg, -⟩ := hb.create hf c.dst created
  rw [hrun, ok_bind]
  dsimp only
  split
  · exact ⟨heffect, hbase, by simp⟩
  rw [hg]
  refine ⟨heffect, hbase, fun dest hdest => ?_⟩
  simp only [State.destination, hg, Option.bind_some]
  cases hd : g.destinationFile with
  | none => simp [hd] at hdest
  | some d =>
    simp only [hd, CopierPc.copying.injEq] at hdest
    rw [Option.map_some, hdest]

/-- The end of `unlink`'s section, on a file that may just have got a destination. -/
theorem Base.finishUnlink {path : Path}
    (ha : ∃ created unlinked, a = .unlinkFinish created unlinked)
    (hop : s.fileOp = .unlinkHeld path p) (F₁ : Files)
    (hb₁ : Base hash exact { s with files := F₁ })
    (hf : s.files.heap p = some f) (hg : F₁.heap = Function.update s.files.heap p (some g))
    (hname : g.fullPath = f.fullPath) (hcount : g.referenceCount = f.referenceCount)
    (hdest : f.destinationFile.isSome → g.destinationFile = f.destinationFile) :
    ∃ F', finishUnlink hash F₁ p = .ok F' ∧ Effect s a F' ∧
      ∀ s' : State, s'.files = F' → s'.heldBy .fileOp = none →
        (∀ h', h' ≠ .fileOp → s'.heldBy h' = s.heldBy h') → s'.fault = s.fault →
        Base hash exact s' := by
  let s₁ : State := { s with files := F₁ }
  have hg₁ : s₁.files.heap p = some g := by
    rw [show s₁.files.heap = Function.update s.files.heap p (some g) from hg, Function.update_self]
  -- the mark
  let g₂ : SourceFile := { g with unlinked := true }
  have hb₂ := hb₁.touch (s := s₁) hg₁ g₂ rfl rfl
  let s₂ : State := { s₁ with files := F₁.set p (some g₂) }
  have hg₂ : s₂.files.heap p = some g₂ := Function.update_self _ _ _
  -- the destination
  have hb₃ := hb₂.touch (s := s₂) hg₂ g₂.tryToRemoveDestination (tryToRemoveDestination_same g₂).1
    (tryToRemoveDestination_same g₂).2
  let g₃ := g₂.tryToRemoveDestination
  let s₃ : State := { s₂ with files := s₂.files.set p (some g₃) }
  have hg₃ : s₃.files.heap p = some g₃ := Function.update_self _ _ _
  have hheap₃ : s₃.files.heap = Function.update s.files.heap p (some g₃) := by
    rw [show s₃.files.heap = Function.update (Function.update F₁.heap p (some g₂))
      p (some g₃) from rfl,
      hg, Function.update_idem, Function.update_idem]
  have hheld : s₃.heldBy .fileOp = some p := by
    rw [show s₃.heldBy .fileOp = s.fileOp.source from rfl, hop]
    rfl
  -- the reference
  obtain ⟨F', hrun, hbase⟩ := hb₃.release (s := s₃) hheld
  have hfinish : Lifecycle.finishUnlink hash F₁ p = .ok F' := by
    have hset : F₁.tryToRemoveDestination p = .ok (F₁.set p (some g.tryToRemoveDestination)) := by
      rw [Files.tryToRemoveDestination, show F₁.heap p = some g from hg₁, demand_some, ok_bind,
        Files.modify_of_heap hg₁]
      rfl
    rw [Lifecycle.finishUnlink, show F₁.heap p = some g from hg₁, demand_some, ok_bind]
    dsimp only
    rw [Files.modify_of_heap hg₁, Files.tryToRemoveDestination,
      show (F₁.set p (some g₂)).heap p = some g₂ from hg₂, demand_some, ok_bind,
      Files.modify_of_heap hg₂]
    exact hrun
  refine ⟨F', hfinish, ?_, fun s' hfiles hself hother hfault => hbase s' hfiles hself hother hfault⟩
  obtain ⟨-, -, h₃, hh₃, -, hcases⟩ := Files.tryToRemove_heap hrun
  rw [hg₃] at hh₃
  cases hh₃
  have hcount₃ : g₃.referenceCount = f.referenceCount := by
    rw [(tryToRemoveDestination_same g₂).2]
    exact hcount
  rcases hcases with ⟨hmore, rfl⟩ | ⟨hone, hheap⟩
  · have hg₃' : g₃ = g₂ := by
      rw [show g₃ = g₂.tryToRemoveDestination from rfl, SourceFile.tryToRemoveDestination]
      have hmore₂ : g₂.referenceCount > 1 := by
        rw [hcount₃, ← hcount] at hmore
        exact hmore
      split_ifs
      · rfl
      · rfl
    refine Effect.marked path p f g.destinationFile ha hop hf (by omega) hdest ?_
    rw [Files.set_heap, hheap₃, Function.update_idem, hg₃']
    simp only [g₂, hname, hcount]
  · refine Effect.deleted p f hf (by omega) ?_
    rw [hheap, hheap₃, Function.update_idem]

theorem Base.captureUnlink (hb : Base hash exact s) (hf : s.files.heap p = some f)
    (D : DirectorySet) (path : Path) (created : Bool) :
    Yields (fun e => e ≠ .check)
      (fun r => Base hash exact { s with files := r.2 } ∧ Effect s a r.2 ∧
        (r.1 = false → created = false ∧ f.destinationFile = none) ∧
        ∃ g, r.2.heap = Function.update s.files.heap p (some g) ∧ g.fullPath = f.fullPath ∧
          g.referenceCount = f.referenceCount ∧
          (f.destinationFile.isSome → g.destinationFile = f.destinationFile))
      (captureUnlink s.files D path p created) := by
  rw [Lifecycle.captureUnlink, hf, demand_some, ok_bind]
  split
  · refine ⟨hb, Effect.same rfl, by simp, f, ?_, rfl, rfl, fun _ => rfl⟩
    rw [← hf, Function.update_eq_self]
  · rename_i hnone
    refine yields_bind (yields_demand (by simp)) fun dest_path _ => ?_
    obtain ⟨ok, F', hrun, heffect, hbase, g, hg, hname, -, hcount, hdest, hok, -, hheap⟩ :=
      hb.create hf dest_path created
    rw [hrun, ok_bind]
    dsimp only
    split
    · rename_i hno
      exact ⟨hbase, heffect, fun _ => hok (by simpa using hno), g, hheap, hname, hcount, hdest⟩
    · refine yields_bind (yields_demand (by simp)) fun g' _ => ?_
      refine yields_bind (yields_demand (by simp)) fun d _ => ?_
      exact ⟨hbase, heffect, by simp, g, hheap, hname, hcount, hdest⟩

/-- The locked section of `unlink`, after which the operation holds no reference. -/
theorem Base.unlinkSection (hb : Base hash exact s) {path : Path}
    (hop : s.fileOp = .unlinkHeld path p) (created unlinked : Bool)
    (hok : exact → UnlinkOk s (.unlinkFinish created unlinked)) :
    Yields (fun e => e ≠ .check)
      (fun r => Effect s (.unlinkFinish created unlinked) r.1 ∧ ∀ s' : State, s'.files = r.1 →
        s'.heldBy .fileOp = none →
        (∀ h', h' ≠ .fileOp → s'.heldBy h' = s.heldBy h') → s'.fault = s.fault →
        Base hash exact s')
      (unlinkSection hash s path p created unlinked) := by
  have hheld : s.heldBy .fileOp = some p := by rw [State.heldBy, hop]; rfl
  obtain ⟨f, hf, -⟩ := hb.live hheld
  rw [Lifecycle.unlinkSection]
  split
  · rename_i D hcapture
    refine yields_bind
      (hb.captureUnlink (a := .unlinkFinish created unlinked) hf D path created) ?_
    rintro ⟨ok, F₁⟩ ⟨hb₁, heffect₁, hfail, g, hg, hname, hcount, hdest⟩
    dsimp only at hb₁ heffect₁ hfail hg ⊢
    split
    · obtain ⟨F', hrun, heffect, hbase⟩ :=
        Base.finishUnlink ⟨created, unlinked, rfl⟩ hop F₁ hb₁ hf hg hname hcount hdest
      rw [hrun]
      exact ⟨heffect, hbase⟩
    · -- the early exit keeps the reference
      rename_i hno
      obtain ⟨hcreated, hnone⟩ := hfail (by simpa using hno)
      refine ⟨heffect₁, fun s' hfiles hself hother hfault => ?_⟩
      refine hb₁.leak (h := .fileOp) (fun hex => ?_) hfiles hself hother hfault
      have hmust := hok hex
      simp only [UnlinkOk, hop] at hmust
      rw [hmust (by rw [hcapture]; rfl) (by simp [State.destination, hf, hnone])] at hcreated
      cases hcreated
  · obtain ⟨F', hrun, heffect, hbase⟩ :=
      Base.finishUnlink ⟨created, unlinked, rfl⟩ hop s.files hb hf
      (g := f) (by rw [← hf, Function.update_eq_self]) rfl rfl fun _ => rfl
    rw [hrun]
    exact ⟨heffect, hbase⟩

/-- The files change, but the table holds the same files and these are as before. -/
theorem Base.sameHeap (hb : Base hash exact s) (hrep : Rep hash s'.files)
    (hheap : s'.files.heap = s.files.heap)
    (hmem : ∀ q, s'.files.table.Mem q ↔ s.files.table.Mem q)
    (hfresh : s.files.fresh ≤ s'.files.fresh) (hheld : ∀ h, s'.heldBy h = s.heldBy h)
    (hfault : s'.fault = s.fault) : Base hash exact s' where
  rep := hrep
  fresh q g hq := lt_of_lt_of_le (hb.fresh q g (hheap ▸ hq)) hfresh
  mem q := by rw [hmem q, hheap, hb.mem q]
  counted q g hq := by
    simp only [hheld]
    exact hb.counted q g (hheap ▸ hq)
  held h q hq := by
    rw [hheld] at hq
    rw [hheap]
    exact hb.held h q hq
  check := hfault ▸ hb.check

/-- The state in which `rename_locked` holds its reference to the target, in the place of
the reference of an `unlink`. -/
def State.holding (s : State) (path : Path) (source : Ptr) (files : Files) : State :=
  { s with files, fileOp := .unlinkHeld path source }

/-- The beginning of `rename_locked`: the target `p`, as `g`, is held and has got a
destination if one can be created. -/
theorem Base.holdTarget (hb : Base hash exact s) (hnone : s.heldBy .fileOp = none)
    (old_path old_dest : Path) (created : Bool) :
    ∃ p F₁ ok F₂ g, s.files.getOrCreate hash old_path = .ok (p, F₁) ∧
      F₁.tryToCreateDestinationFile p old_dest created = .ok (ok, F₂) ∧
      Base hash exact (s.holding old_path p F₂) ∧ F₂.heap p = some g ∧
      g.fullPath = some old_path ∧ s.files.fresh ≤ F₂.fresh ∧
      (∀ q, q ≠ p → F₂.heap q = s.files.heap q) ∧
      ((∃ f, s.files.get hash old_path = .ok (some p) ∧ s.files.heap p = some f ∧
          f.fullPath = some old_path ∧ 0 < f.referenceCount ∧
          g.referenceCount = f.referenceCount + 1 ∧ g.unlinked = f.unlinked ∧
          (f.destinationFile.isSome → g.destinationFile = f.destinationFile) ∧
          (ok = false → created = false ∧ f.destinationFile = none)) ∨
        (s.files.get hash old_path = .ok none ∧ s.files.heap p = none ∧ g.referenceCount = 1 ∧
          (ok = false → created = false))) := by
  obtain ⟨p, F₁, hget, -, hname, hbase⟩ := hb.getOrCreate (a := .error) old_path hnone
  have hb₁ : Base hash exact (s.holding old_path p F₁) := by
    refine hbase _ rfl rfl (fun h' hh' => ?_) rfl
    cases h' with
    | fileOp => exact absurd rfl hh'
    | fd fd => rfl
    | copier => rfl
  obtain ⟨f₁, hf₁, -⟩ := hb₁.live (h := .fileOp) (p := p) rfl
  have hf₁ : F₁.heap p = some f₁ := hf₁
  have hname₁ : f₁.fullPath = some old_path := by rw [← hname, Files.name_of_heap hf₁]
  obtain ⟨ok, F₂, hcreate, -, hb₂, g, hg, hgname, hgmark, hgcount, hgdest, hfail, -, hheap₂⟩ :=
    hb₁.create (a := .error) hf₁ old_dest created
  obtain ⟨f₁', hf₁', hfresh₂, -, hcases₂⟩ := Files.tryToCreateDestinationFile_heap hcreate
  rw [show (s.holding old_path p F₁).files.heap p = some f₁ from hf₁] at hf₁'
  cases hf₁'
  refine ⟨p, F₁, ok, F₂, g, hget, hcreate, hb₂, hg, hgname.trans hname₁, ?_, fun q hq => ?_, ?_⟩
  · rw [hfresh₂]
    obtain ⟨-, ⟨f, -, -, hF₁⟩ | ⟨-, hF₁, -⟩⟩ := Files.getOrCreate_heap hget
    · exact (congrArg Files.fresh hF₁).ge
    · exact (Nat.le_succ _).trans_eq hF₁.symm
  · rw [hheap₂, Function.update_of_ne hq]
    obtain ⟨-, ⟨f, -, -, hF₁⟩ | ⟨-, -, hF₁⟩⟩ := Files.getOrCreate_heap hget
    · rw [show (s.holding old_path p F₁).files = s.files.set p _ from hF₁, Files.set_heap,
        Function.update_of_ne hq]
    · rw [show (s.holding old_path p F₁).files.heap = Function.update s.files.heap p _ from hF₁,
        Function.update_of_ne hq]
  · obtain ⟨-, ⟨f, hf, hfname, hF₁⟩ | ⟨hfresh, -, hF₁⟩⟩ := Files.getOrCreate_heap hget
    · have hmem : s.files.table.Mem p := (hb.mem p).mpr (by rw [hf]; simp)
      have hf₁f : f₁ = { f with referenceCount := f.referenceCount + 1 } := by
        rw [hF₁, Files.set_heap, Function.update_self] at hf₁
        exact (Option.some.inj hf₁).symm
      subst hf₁f
      exact Or.inl ⟨f, hb.rep.get_some hmem ((Files.name_of_heap hf).trans hfname), hf, hfname,
        (hb.counted p f hf).1, hgcount, hgmark, hgdest, hfail⟩
    · have hf₁f : f₁ = ⟨some old_path, 1, false, none⟩ := by
        rw [hF₁, Function.update_self] at hf₁
        exact (Option.some.inj hf₁).symm
      subst hf₁f
      have hdead : s.files.heap p = none := by
        by_contra hlive
        obtain ⟨f, hf⟩ := Option.ne_none_iff_exists'.mp hlive
        exact (hb.fresh p f hf).ne hfresh
      refine Or.inr ⟨?_, hdead, hgcount, fun hok => (hfail hok).1⟩
      rcases Files.get_of_getOrCreate hget with hfound | ⟨hnot, -⟩
      · obtain ⟨f, hf, -⟩ := live_of_name (Files.name_of_get hfound)
        rw [hdead] at hf
        cases hf
      · exact hnot

/-- No other file of the table has the new name, before and after the target is held. -/
theorem Base.newNameFree (hb : Base hash exact s) {old_path new_path : Path} {F₂ : Files}
    (hb₂ : Base hash exact (s.holding old_path p F₂)) (hg : F₂.heap p = some g)
    (hname : g.fullPath = some old_path) (hheap : ∀ q, q ≠ p → F₂.heap q = s.files.heap q)
    (hfree : new_path = old_path ∨ s.files.get hash new_path = .ok none) :
    ∀ q, F₂.table.Mem q → F₂.name q = some new_path → q = p := by
  intro q hq hqn
  by_contra hqp
  have hpm : F₂.table.Mem p := (hb₂.mem p).mpr (by
    rw [show (s.holding old_path p F₂).files.heap p = some g from hg]
    simp)
  rcases hfree with rfl | hgetnew
  · refine hqp (hb₂.rep.inj q p new_path hq hpm hqn ?_)
    exact (Files.name_of_heap hg).trans hname
  · have hqm : s.files.table.Mem q := by
      refine (hb.mem q).mpr ?_
      rw [← hheap q hqp]
      exact (hb₂.mem q).mp hq
    have hqn' : s.files.name q = some new_path := by
      rw [Files.name, ← hheap q hqp]
      exact hqn
    rw [hb.rep.get_some hqm hqn'] at hgetnew
    cases hgetnew

/-- The rest of `rename_locked` when the destination is renamed. -/
theorem Base.finishRename (ha : ∃ created renamed enoent, a = .renameCapture created renamed enoent)
    {old_path new_path new_dest : Path}
    (hop : s.fileOp = .renamed old_path new_path) {o : RenameOutcome} {F₂ : Files} {ok : Bool}
    {created : Bool} (hreal : o.realpath = some new_path) (hren : o.renamed = true)
    (hb₂ : Base hash exact (s.holding old_path p F₂)) (hg : F₂.heap p = some g)
    (hd : g.destinationFile.isSome) (hheap : ∀ q, q ≠ p → F₂.heap q = s.files.heap q)
    (hno : ∀ q, F₂.table.Mem q → F₂.name q = some new_path → q = p)
    (hcases : (∃ f, s.files.get hash old_path = .ok (some p) ∧ s.files.heap p = some f ∧
          f.fullPath = some old_path ∧ 0 < f.referenceCount ∧
          g.referenceCount = f.referenceCount + 1 ∧ g.unlinked = f.unlinked ∧
          (f.destinationFile.isSome → g.destinationFile = f.destinationFile) ∧
          (ok = false → created = false ∧ f.destinationFile = none)) ∨
        (s.files.get hash old_path = .ok none ∧ s.files.heap p = none ∧ g.referenceCount = 1 ∧
          (ok = false → created = false))) :
    ∃ F₃ F₄, F₂.rename hash p new_dest o = .ok (true, F₃) ∧ F₃.tryToRemove hash p = .ok F₄ ∧
      Effect s a F₄ ∧ ∀ s' : State, s'.files = F₄ → (∀ h', s'.heldBy h' = s.heldBy h') →
        s'.fault = s.fault → Base hash exact s' := by
  obtain ⟨d, hd⟩ := Option.isSome_iff_exists.mp hd
  obtain ⟨F₃, hrename, hheap₃, hb₃⟩ := hb₂.rename hg hreal hren (by rw [hd]; rfl) hno
  obtain ⟨F₄, hremove, hbase₄⟩ := hb₃.release (h := .fileOp) (p := p) rfl
  have hremove : F₃.tryToRemove hash p = .ok F₄ := hremove
  have hheap₃ : F₃.heap = Function.update F₂.heap p (some (g.renamed new_dest o)) := hheap₃
  have hg₃ : F₃.heap p = some (g.renamed new_dest o) := by rw [hheap₃, Function.update_self]
  -- the changes together are one change of the target
  have hupd : ∀ x, F₄.heap = Function.update F₃.heap p x →
      F₄.heap = Function.update s.files.heap p x := by
    intro x hx
    funext q
    rw [hx, Function.update_apply, Function.update_apply]
    split
    · rfl
    · rename_i hq
      rw [hheap₃, Function.update_of_ne hq]
      exact hheap q hq
  obtain ⟨-, -, h₃, hh₃, -, hlast⟩ := Files.tryToRemove_heap hremove
  rw [hg₃] at hh₃
  cases hh₃
  have hcount₃ : (g.renamed new_dest o).referenceCount = g.referenceCount := rfl
  have hnone : s.heldBy .fileOp = none := by rw [State.heldBy, hop]; rfl
  refine ⟨F₃, F₄, hrename, hremove, ?_, fun s' hfiles hheld hfault =>
    hbase₄ s' hfiles (by rw [hheld, hnone]) (fun h' hh' => ?_) hfault⟩
  · rcases hcases with ⟨f, -, hf, hfname, hpos, hcount, hmark, hdest, -⟩ | ⟨-, hdead, hcount, -⟩
    · rcases hlast with ⟨-, hF₄⟩ | ⟨hone, -⟩
      · refine Effect.renamed old_path new_path p f { d with path := new_dest } ha hop hf hfname
          (fun d' hd' => ?_) ?_
        · have hsame := hdest (by rw [hd']; rfl)
          rw [hd, hd'] at hsame
          cases hsame
          rfl
        · refine (hupd _ (by rw [hF₄]; rfl)).trans (congrArg _ (congrArg some ?_))
          ext1
          · exact hreal
          · rw [hcount₃, hcount]
            rfl
          · exact hmark
          · simp [SourceFile.renamed, hreal, hren, hd]
      · omega
    · rcases hlast with ⟨hmore, -⟩ | ⟨-, hF₄⟩
      · omega
      · refine Effect.same ?_
        rw [hupd none hF₄, ← hdead, Function.update_eq_self]
  · rw [hheld h']
    cases h' with
    | fileOp => exact absurd rfl hh'
    | fd fd => rfl
    | copier => rfl

/-- The rest of `rename_locked` when the destination cannot be renamed, and nobody else
holds the target: it is deleted. -/
theorem Base.dropRename (hb : Base hash exact s) {old_path new_path new_dest : Path}
    {o : RenameOutcome} {F₂ : Files} (hreal : o.realpath = some new_path) (hren : o.renamed = false)
    (hb₂ : Base hash exact (s.holding old_path p F₂)) (hg : F₂.heap p = some g)
    (hd : g.destinationFile.isSome) (hfresh : s.files.fresh ≤ F₂.fresh)
    (hheap : ∀ q, q ≠ p → F₂.heap q = s.files.heap q)
    (hno : ∀ q, F₂.table.Mem q → F₂.name q = some new_path → q = p)
    (hdead : s.files.heap p = none) (hone : g.referenceCount = 1) :
    ∃ F₃ F₄, F₂.rename hash p new_dest o = .ok (false, F₃) ∧ F₃.tryToRemove hash p = .ok F₄ ∧
      Effect s a F₄ ∧ ∀ s' : State, s'.files = F₄ → (∀ h', s'.heldBy h' = s.heldBy h') →
        s'.fault = s.fault → Base hash exact s' := by
  have hmem₂ : F₂.table.Mem p := (hb₂.mem p).mpr (by
    rw [show (s.holding old_path p F₂).files.heap p = some g from hg]
    simp)
  obtain ⟨F₃, hrename, hrep₃, hmem₃, hheap₃⟩ :=
    hb₂.rep.rename_fails hmem₂ hg new_dest (Or.inr hren) fun _ => hd
  have hheap₃ : F₃.heap = Function.update F₂.heap p (some (g.renamed new_dest o)) := hheap₃
  have hg₃ : F₃.heap p = some (g.renamed new_dest o) := by rw [hheap₃, Function.update_self]
  have hnot : ¬ F₃.table.Mem p := fun hp => ((hmem₃ p).mp hp).2 rfl
  have hcount₃ : (g.renamed new_dest o).referenceCount = 1 := hone
  obtain ⟨F₄, hremove, hrep₄, htable⟩ :=
    hrep₃.tryToRemove_absent hnot hg₃ (by rw [hcount₃]; exact Nat.one_pos) fun _ => by
      refine ⟨new_path, hreal, fun q hq hqn => ?_⟩
      have hqp := ((hmem₃ q).mp hq).2
      refine hqp (hno q ((hmem₃ q).mp hq).1 ?_)
      rw [Files.name, ← Function.update_of_ne hqp (some (g.renamed new_dest o)) F₂.heap, ← hheap₃]
      exact hqn
  obtain ⟨hfresh₃, -, -, -⟩ := Files.rename_heap hrename
  obtain ⟨hfresh₄, -, h₃, hh₃, -, ⟨hmore, -⟩ | ⟨-, hheap₄⟩⟩ := Files.tryToRemove_heap hremove
  · rw [hg₃] at hh₃
    cases hh₃
    omega
  have hheap' : F₄.heap = s.files.heap := by
    funext q
    rw [hheap₄, hheap₃, Function.update_idem, Function.update_apply]
    split
    · rename_i hq
      rw [hq, hdead]
    · rename_i hq
      exact hheap q hq
  refine ⟨F₃, F₄, hrename, hremove, Effect.same hheap', fun s' hfiles hheld hfault => ?_⟩
  refine hb.sameHeap (hfiles ▸ hrep₄) (hfiles ▸ hheap') (fun q => ?_) ?_ hheld hfault
  · rw [hfiles, htable, hmem₃ q, hb.mem q]
    by_cases hq : q = p
    · simp [hq, hdead]
    · rw [hb₂.mem q, show (s.holding old_path p F₂).files.heap q = F₂.heap q from rfl, hheap q hq]
      simp [hq]
  · rw [hfiles, hfresh₄, hfresh₃]
    exact hfresh

/-- The rest of `rename_locked` when nobody else holds the target, whatever file has the new
name. -/
theorem Base.passRename (hb : Base hash exact s) {old_path new_path new_dest : Path}
    {o : RenameOutcome} {F₂ : Files} (hreal : o.realpath = some new_path) (hren : o.renamed = true)
    (hb₂ : Base hash exact (s.holding old_path p F₂)) (hg : F₂.heap p = some g)
    (hd : g.destinationFile.isSome) (hroom : F₂.table.count ≤ F₂.table.size)
    (hfresh : s.files.fresh ≤ F₂.fresh) (hheap : ∀ q, q ≠ p → F₂.heap q = s.files.heap q)
    (hdead : s.files.heap p = none) (hone : g.referenceCount = 1) :
    ∃ F₃ F₄, F₂.rename hash p new_dest o = .ok (true, F₃) ∧ F₃.tryToRemove hash p = .ok F₄ ∧
      Effect s a F₄ ∧ ∀ s' : State, s'.files = F₄ → (∀ h', s'.heldBy h' = s.heldBy h') →
        s'.fault = s.fault → Base hash exact s' := by
  have hmem₂ : F₂.table.Mem p := (hb₂.mem p).mpr (by
    rw [show (s.holding old_path p F₂).files.heap p = some g from hg]
    simp)
  obtain ⟨F₃, F₄, hrename, hremove, hrep, hgone, hkept, hmem⟩ :=
    hb₂.rep.rename_transient hmem₂ hg hroom hone hd new_dest hreal hren
  have hgone : F₄.heap = Function.update F₂.heap p none := hgone
  have hheap' : F₄.heap = s.files.heap := by
    funext q
    rw [hgone, Function.update_apply]
    split
    · rename_i hq
      rw [hq, hdead]
    · rename_i hq
      exact hheap q hq
  refine ⟨F₃, F₄, hrename, hremove, Effect.same hheap', fun s' hfiles hheld hfault => ?_⟩
  refine hb.sameHeap (hfiles ▸ hrep) (hfiles ▸ hheap') (fun q => ?_) ?_ hheld hfault
  · rw [hfiles, hmem q, hb.mem q]
    by_cases hq : q = p
    · simp [hq, hdead]
    · rw [hb₂.mem q, show (s.holding old_path p F₂).files.heap q = F₂.heap q from rfl, hheap q hq]
      simp [hq]
  · rw [hfiles]
    exact hfresh.trans hkept.ge

/-- `capture_rename`, when `RenameFits` allows it. -/
theorem Base.captureRename (hb : Base hash exact s)
    (ha : ∃ created renamed enoent, a = .renameCapture created renamed enoent)
    {old_path new_path : Path}
    (hop : s.fileOp = .renamed old_path new_path) (D : DirectorySet) {o : RenameOutcome}
    (hreal : o.realpath = some new_path)
    (hok : D.isPrefixOfRealpath old_path = true → D.isPrefixOfRealpath new_path = true →
      match s.files.get hash old_path with
      | .ok (some target) => (new_path = old_path ∨ s.files.get hash new_path = .ok none) ∧
          o.renamed = true ∧ (s.destination target = none → o.created = true)
      | _ => o.created = true ∧
          ((new_path = old_path ∨ s.files.get hash new_path = .ok none) ∨ o.renamed = true)) :
    Yields (fun e => e ≠ .check)
      (fun r => Effect s a r.1 ∧ ∀ s' : State, s'.files = r.1 →
        (∀ h', s'.heldBy h' = s.heldBy h') → s'.fault = s.fault → Base hash exact s')
      (captureRename hash s.files D old_path new_path o) := by
  have hnone : s.heldBy .fileOp = none := by rw [State.heldBy, hop]; rfl
  rw [Lifecycle.captureRename, if_neg (by rw [hreal]; simp)]
  split
  · rename_i hin
    have hok := hok hin.1 hin.2
    refine yields_bind (yields_demand (by simp)) fun old_dest _ => ?_
    refine yields_bind (yields_demand (by simp)) fun new_dest _ => ?_
    obtain ⟨p, F₁, ok, F₂, g, hget, hcreate, hb₂, hg, hname, hfresh, hheap, hcases⟩ :=
      hb.holdTarget hnone old_path old_dest o.created
    have hokt : ok = true := by
      by_contra hbad
      have hbad : ok = false := by simpa using hbad
      rcases hcases with ⟨f, hgetold, hf, -, -, -, -, -, hfail⟩ | ⟨hgetold, -, -, hfail⟩
      · rw [hgetold] at hok
        obtain ⟨hc, hd⟩ := hfail hbad
        rw [hok.2.2 (by simp [State.destination, hf, hd])] at hc
        cases hc
      · rw [hgetold] at hok
        rw [show o.created = true from hok.1] at hfail
        cases hfail hbad
    subst hokt
    have hmem₂ : F₂.table.Mem p := (hb₂.mem p).mpr (by
      rw [show (s.holding old_path p F₂).files.heap p = some g from hg]
      simp)
    rw [Files.renameLocked, hget]
    simp only [ok_bind, hcreate, if_true]
    cases hd : g.destinationFile with
    | none =>
      have hnull : F₂.rename hash p new_dest o = .error .pointer :=
        hb₂.rep.rename_null hmem₂ hg hreal hd
      rw [hnull]
      exact (by simp : Fault.pointer ≠ Fault.check)
    | some d =>
      have hsome : g.destinationFile.isSome := by rw [hd]; rfl
      rcases hcases with ⟨f, hgetold, hcases⟩ | ⟨hgetold, hdead, hcount, hfail⟩
      · -- the target was in the table, and no other file has the new name
        rw [hgetold] at hok
        have hno := hb.newNameFree hb₂ hg hname hheap hok.1
        obtain ⟨F₃, F₄, hrename, hremove, heffect, hbase⟩ :=
          Base.finishRename ha hop hreal hok.2.1 hb₂ hg hsome hheap hno
            (Or.inl ⟨f, hgetold, hcases⟩)
        rw [hrename]
        simp only [ok_bind, hremove]
        exact ⟨heffect, hbase⟩
      · rw [hgetold] at hok
        by_cases hren : o.renamed = true
        · have hroom : F₂.table.count ≤ F₂.table.size := by
            rw [tryToCreateDestinationFile_table hcreate]
            exact hb.rep.getOrCreate_room hgetold hget
          obtain ⟨F₃, F₄, hrename, hremove, heffect, hbase⟩ :=
            hb.passRename hreal hren hb₂ hg hsome hroom hfresh hheap hdead hcount
          rw [hrename]
          simp only [ok_bind, hremove]
          exact ⟨heffect, hbase⟩
        · have hno := hb.newNameFree hb₂ hg hname hheap (hok.2.resolve_right hren)
          obtain ⟨F₃, F₄, hrename, hremove, heffect, hbase⟩ :=
            hb.dropRename hreal (by simpa using hren) hb₂ hg hsome hfresh hheap hno hdead hcount
          rw [hrename]
          simp only [ok_bind, hremove]
          exact ⟨heffect, hbase⟩
  · exact ⟨Effect.same rfl, fun s' hfiles hheld hfault => hb.congr hfiles hheld hfault⟩

/-! ## The steps -/

theorem heldBy_moveFd {fd : Nat} {d : Fd} {stage : FdStage} (h : Holder) :
    (s.moveFd fd d stage).heldBy h = if h = .fd fd then stage.source else s.heldBy h := by
  cases h with
  | fd fd' =>
    simp only [State.heldBy, State.moveFd, Holder.fd.injEq]
    split
    · rename_i hfd
      rw [hfd, Function.update_self, Option.bind_some]
    · rename_i hfd
      rw [Function.update_of_ne hfd]
  | fileOp => rfl
  | copier => rfl

theorem heldBy_fd {fd : Nat} {d : Fd} (hd : s.fds fd = some d) :
    s.heldBy (.fd fd) = d.stage.source := by
  rw [State.heldBy, hd, Option.bind_some]

theorem unlock_source (op : FileOp) (fd : Nat) : (op.unlock fd).source = op.source := by
  rw [FileOp.unlock]
  split
  · rename_i hop
    rw [hop]
    rfl
  · rfl

/-- An fd moves on and keeps the reference it has, or has none before and after. -/
theorem Base.moveFd (hb : Base hash exact s) {fd : Nat} {d : Fd} {stage : FdStage}
    (hd : s.fds fd = some d) (hsource : stage.source = d.stage.source) :
    Base hash exact (s.moveFd fd d stage) := by
  refine hb.congr rfl (fun h => ?_) rfl
  rw [heldBy_moveFd]
  split
  · rename_i hh
    rw [hh, heldBy_fd hd, hsource]
  · rfl

/-- A section keeps the invariant and has an effect when its result does. -/
theorem Base.run (hb : Base hash exact s) {α : Type} {x : Except Fault α} {k : α → State}
    (hx : Yields (fun e => e ≠ .check)
      (fun b => Base hash exact (k b) ∧ Effect s a (k b).files) x) :
    Base hash exact (s.attempt x k) ∧ Effect s a (s.attempt x k).files := by
  cases x with
  | error e => exact ⟨hb.stop hx, Effect.same rfl⟩
  | ok a => exact hx

/-- A step that leaves the files alone and moves no reference. -/
theorem Base.still (hb : Base hash exact s) (hfiles : s'.files = s.files)
    (hheld : ∀ h, s'.heldBy h = s.heldBy h) (hfault : s'.fault = s.fault) :
    Base hash exact s' ∧ Effect s a s'.files := by
  refine ⟨hb.congr hfiles hheld hfault, Effect.same ?_⟩
  rw [hfiles]

/-- An fd without a reference is opened, or forgotten. -/
theorem Base.replaceFd (hb : Base hash exact s) {fd : Nat} {o : Option Fd}
    (hfd : s.heldBy (.fd fd) = none) (ho : (o.bind fun d => d.stage.source) = none)
    (hfiles : s'.files = s.files) (hfds : s'.fds = Function.update s.fds fd o)
    (hop : s'.fileOp.source = s.fileOp.source) (hbackup : s'.backup = s.backup)
    (hfault : s'.fault = s.fault) :
    Base hash exact s' ∧ Effect s a s'.files := by
  refine hb.still hfiles (fun h => ?_) hfault
  cases h with
  | fd fd' =>
    rw [State.heldBy, hfds]
    by_cases hfd' : fd' = fd
    · rw [hfd', Function.update_self, ho, hfd]
    · rw [Function.update_of_ne hfd']
      rfl
  | fileOp => exact hop
  | copier => simp only [State.heldBy, hbackup]

theorem base_stepOpen (hb : Base hash exact s) {a : Action}
    (hstep : stepOpen hash s a = some s') : Base hash exact s' ∧ Effect s a s'.files := by
  have hnew : ∀ {fd}, s.fds fd = none → s.heldBy (.fd fd) = none := by
    intro fd hfd
    rw [State.heldBy, hfd]
    rfl
  cases openStep_of_stepOpen hstep with
  | existing fd path i hfd _ hs' =>
    subst hs'
    exact hb.replaceFd (hnew hfd) rfl rfl rfl rfl rfl rfl
  | found fd path i hfd hfree _ hs' =>
    subst hs'
    exact hb.replaceFd (hnew hfd) rfl rfl rfl (by rw [hfree]; rfl) rfl rfl
  | new fd path hfd hfree _ hs' =>
    subst hs'
    exact hb.replaceFd (hnew hfd) rfl rfl rfl (by rw [hfree]; rfl) rfl rfl
  | untracked fd d hd hstage _ hs' =>
    subst hs'
    have hnone : s.heldBy (.fd fd) = none := by rw [heldBy_fd hd, hstage]; rfl
    exact hb.replaceFd hnone rfl rfl rfl (unlock_source _ _) rfl rfl
  | attach fd d hd hstage _ hsection =>
    cases hsection
    have hnone : s.heldBy (.fd fd) = none := by rw [heldBy_fd hd, hstage]; rfl
    obtain ⟨p, F', hrun, heffect, -, hbase⟩ := hb.getOrCreate d.path hnone
    refine hb.run (yields_of_ok hrun ⟨hbase _ rfl ?_ (fun h hh => ?_) rfl, heffect⟩)
    · rw [heldBy_moveFd, if_pos rfl]
      rfl
    · rw [heldBy_moveFd, if_neg hh]
      rfl
  | publish fd d source hd hstage _ hs' =>
    subst hs'
    refine ⟨?_, Effect.same rfl⟩
    have hsize : Base hash exact { s with mapSize := max s.mapSize (fd + 1) } :=
      hb.congr rfl (fun _ => rfl) rfl
    exact hsize.moveFd hd (by rw [hstage]; rfl)
  | capture fd opened created d source captured hd hstage _ hcaptured hsection =>
    cases hsection
    have hheld : s.heldBy (.fd fd) = some source := by rw [heldBy_fd hd, hstage]; rfl
    refine hb.run (yields_mono (P := fun r => Effect s (.openCapture fd opened created) r.1 ∧
      Base hash exact { s with files := r.1 }) ?_ fun r hr => ⟨?_, hr.1⟩)
    · obtain ⟨D, -, rfl⟩ | ⟨-, rfl⟩ := hcaptured
      · exact hb.captureOpen hheld _ _ _ _
      · exact ⟨Effect.same rfl, hb⟩
    have hmid : Base hash exact { s.backupError r.2 with
        files := r.1
        fileOp := s.fileOp.unlock fd } := by
      refine hr.2.congr rfl (fun h => ?_) rfl
      cases h with
      | fd fd' => rfl
      | fileOp => exact unlock_source _ _
      | copier => rfl
    exact hmid.moveFd hd (by rw [hstage]; rfl)

theorem base_stepClose (hb : Base hash exact s) {a : Action}
    (hstep : stepClose hash s a = some s') : Base hash exact s' ∧ Effect s a s'.files := by
  cases closeStep_of_stepClose hstep with
  | begin fd d source hd hstage _ hs' =>
    subst hs'
    exact ⟨hb.moveFd hd (by rw [hstage]; rfl), Effect.same rfl⟩
  | unhook fd d source hd hstage _ _ hsection =>
    cases hsection
    have hheld : s.heldBy (.fd fd) = some source := by rw [heldBy_fd hd, hstage]; rfl
    obtain ⟨F', hrun, heffect, hbase⟩ :=
      hb.unhook (hb.held _ _ hheld) (Or.inl ⟨.fd fd, ⟨d, source, hd, hstage⟩, hheld⟩)
    exact hb.run (yields_of_ok hrun ⟨hbase.moveFd hd (by rw [hstage]; rfl), heffect⟩)
  | pass fd d source hd hstage _ _ hs' =>
    subst hs'
    exact ⟨hb.moveFd hd (by rw [hstage]; rfl), Effect.same rfl⟩
  | erase fd d source hd hstage _ hs' =>
    subst hs'
    exact ⟨hb.moveFd hd (by rw [hstage]; rfl), Effect.same rfl⟩
  | release fd d source hd hstage hsection =>
    cases hsection
    have hheld : s.heldBy (.fd fd) = some source := by rw [heldBy_fd hd, hstage]; rfl
    obtain ⟨F', hrun, heffect, hbase⟩ := hb.tryToRemove hheld
    refine hb.run (yields_of_ok hrun ⟨hbase _ rfl ?_ (fun h hh => ?_) rfl, heffect⟩)
    · rw [heldBy_moveFd, if_pos rfl]
      rfl
    · rw [heldBy_moveFd, if_neg hh]
      rfl
  | real fd d hd hstage hs' =>
    subst hs'
    exact hb.replaceFd (by rw [heldBy_fd hd, hstage]; rfl) rfl rfl rfl rfl rfl rfl

/-- A step of an operation that neither takes nor gives back a reference. -/
theorem Base.moveOp (hb : Base hash exact s) (hfiles : s'.files = s.files) (hfds : s'.fds = s.fds)
    (hop : s'.fileOp.source = s.fileOp.source) (hbackup : s'.backup = s.backup)
    (hfault : s'.fault = s.fault) : Base hash exact s' ∧ Effect s a s'.files := by
  refine hb.still hfiles (fun h => ?_) hfault
  cases h with
  | fd fd => simp only [State.heldBy, hfds]
  | fileOp => exact hop
  | copier => simp only [State.heldBy, hbackup]

theorem heldBy_fileOp_ne {h : Holder} (hfds : s'.fds = s.fds) (hbackup : s'.backup = s.backup)
    (hh : h ≠ .fileOp) : s'.heldBy h = s.heldBy h := by
  cases h with
  | fd fd => simp only [State.heldBy, hfds]
  | fileOp => exact absurd rfl hh
  | copier => simp only [State.heldBy, hbackup]

/-- A file that is being renamed has its new name after the real `rename`. -/
def State.Renamed (s : State) : Prop :=
  ∀ old_path new_path, s.fileOp = .renamed old_path new_path → s.names new_path ≠ none

theorem base_stepFileOp (hb : Base hash exact s) (hnamed : s.Renamed) {a : Action}
    (hrename : RenameFits hash s a) (hunlink : exact → UnlinkOk s a)
    (hstep : stepFileOp hash s a = some s') : Base hash exact s' ∧ Effect s a s'.files := by
  cases fileOpStep_of_stepFileOp hstep with
  | unlinkStart path hfree _ hs' =>
    subst hs'
    exact hb.moveOp rfl rfl (by rw [hfree]; rfl) rfl rfl
  | unlinkReal path hop hs' =>
    subst hs'
    exact hb.moveOp rfl rfl (by rw [hop]; rfl) rfl rfl
  | unlinkAbort path hop hs' =>
    subst hs'
    exact hb.moveOp rfl rfl (by rw [hop]; rfl) rfl rfl
  | unlinkHold path hop hsection =>
    cases hsection
    have hnone : s.heldBy .fileOp = none := by rw [State.heldBy, hop]; rfl
    obtain ⟨p, F', hrun, heffect, -, hbase⟩ := hb.getOrCreate path hnone
    exact hb.run (yields_of_ok hrun
      ⟨hbase _ rfl rfl (fun h hh => heldBy_fileOp_ne rfl rfl hh) rfl, heffect⟩)
  | unlinkFinish created unlinked path source hop _ hsection =>
    cases hsection
    refine hb.run (yields_mono (hb.unlinkSection hop created unlinked hunlink) fun r hr => ?_)
    exact ⟨hr.2 _ rfl rfl (fun h hh => heldBy_fileOp_ne rfl rfl hh) rfl, hr.1⟩
  | renameStart old_path new_path hfree _ hs' =>
    subst hs'
    exact hb.moveOp rfl rfl (by rw [hfree]; rfl) rfl rfl
  | renameReal old_path new_path hop hs' =>
    subst hs'
    exact hb.moveOp rfl rfl (by rw [hop]; rfl) rfl rfl
  | renameAbort old_path new_path hop hs' =>
    subst hs'
    exact hb.moveOp rfl rfl (by rw [hop]; rfl) rfl rfl
  | renameCapture created renamed enoent old_path new_path D hop _ hsession hsection =>
    cases hsection
    rw [if_neg (hnamed old_path new_path hop)]
    simp only [RenameFits, hop, hsession] at hrename
    refine hb.run (yields_mono (hb.captureRename
      (a := .renameCapture created renamed enoent) ⟨_, _, _, rfl⟩ hop D rfl hrename) fun r hr => ?_)
    refine ⟨hr.2 _ rfl (fun h => ?_) rfl, hr.1⟩
    cases h with
    | fd fd => rfl
    | fileOp => simp only [State.heldBy, hop, FileOp.source]
    | copier => rfl
  | renamePass created renamed enoent old_path new_path hop _ _ hs' =>
    subst hs'
    exact hb.moveOp rfl rfl (by rw [hop]; rfl) rfl rfl

theorem base_stepThread (hb : Base hash exact s) {a : Action} (hstep : stepThread s a = some s') :
    Base hash exact s' ∧ Effect s a s'.files := by
  cases threadStep_of_stepThread hstep with
  | call t fd d source _ _ _ _ hs' =>
    subst hs'
    exact hb.still rfl (fun _ => rfl) rfl
  | fetch t fd source _ _ _ hsection =>
    cases hsection
    exact hb.run (yields_mono (yields_demand (by simp)) fun _ _ =>
      hb.still rfl (fun _ => rfl) rfl)
  | pass t fd source _ _ _ hs' =>
    subst hs'
    exact hb.still rfl (fun _ => rfl) rfl
  | use t fd source dest _ _ hs' =>
    subst hs'
    exact hb.still rfl (fun _ => rfl) rfl
  | misuse t fd source dest _ _ hs' =>
    subst hs'
    exact ⟨hb.stop (by simp), Effect.same rfl⟩
  | skip t fd source _ hs' =>
    subst hs'
    exact hb.still rfl (fun _ => rfl) rfl

/-- The backup thread moves on without taking or giving back a reference. -/
theorem Base.backup (hb : Base hash exact s) (hfiles : s'.files = s.files)
    (hfds : s'.fds = s.fds) (hop : s'.fileOp = s.fileOp)
    (hbackup : s'.backup.source = s.backup.source) (hfault : s'.fault = s.fault) :
    Base hash exact s' := by
  refine hb.congr hfiles (fun h => ?_) hfault
  cases h with
  | fd fd => simp only [State.heldBy, hfds]
  | fileOp => simp only [State.heldBy, hop]
  | copier => exact hbackup

theorem Base.moveBackup (hb : Base hash exact s) (hfiles : s'.files = s.files)
    (hfds : s'.fds = s.fds) (hop : s'.fileOp = s.fileOp)
    (hbackup : s'.backup.source = s.backup.source) (hfault : s'.fault = s.fault) :
    Base hash exact s' ∧ Effect s a s'.files := by
  refine ⟨hb.backup hfiles hfds hop hbackup hfault, Effect.same ?_⟩
  rw [hfiles]

theorem heldBy_copier_ne {h : Holder} (hfds : s'.fds = s.fds) (hop : s'.fileOp = s.fileOp)
    (hh : h ≠ .copier) : s'.heldBy h = s.heldBy h := by
  cases h with
  | fd fd => simp only [State.heldBy, hfds]
  | fileOp => simp only [State.heldBy, hop]
  | copier => exact absurd rfl hh

theorem base_copierStep (hb : Base hash exact s) {c : Copier} (hc : s.backup = .copying c)
    {a : Action} (hstep : CopierStep hash s c s' a) :
    Base hash exact s' ∧ Effect s a s'.files := by
  have hheld : s.heldBy .copier = some c.file := by rw [State.heldBy, hc]; rfl
  have hsource : ∀ pc, (Backup.copying { c with pc }).source = s.backup.source := by
    intro pc
    rw [hc]
    rfl
  cases hstep with
  | opened _ _ hs' =>
    subst hs'
    exact hb.moveBackup rfl rfl rfl (hsource _) rfl
  | skipped ok _ _ hs' =>
    subst hs'
    exact hb.moveBackup rfl rfl rfl (hsource _) rfl
  | create created _ hsection =>
    cases hsection
    refine hb.run
      (yields_mono (hb.createDestination (a := .copierCreate created) hc created) fun r hr => ?_)
    exact ⟨hr.2.1.backup rfl rfl rfl (hsource _) rfl, hr.1⟩
  | use dest _ _ hs' =>
    subst hs'
    exact hb.still rfl (fun _ => rfl) rfl
  | misuse dest _ _ hs' =>
    subst hs'
    exact ⟨hb.stop (by simp), Effect.same rfl⟩
  | done ok dest _ hs' =>
    subst hs'
    exact hb.moveBackup rfl rfl rfl (hsource _) rfl
  | unhook hpc hsection =>
    cases hsection
    obtain ⟨F', hrun, heffect, hbase⟩ :=
      hb.unhook (hb.held _ _ hheld) (Or.inl ⟨.copier, ⟨c, hc, hpc⟩, hheld⟩)
    exact hb.run (yields_of_ok hrun ⟨hbase.backup rfl rfl rfl (hsource _) rfl, heffect⟩)
  | release _ hsection =>
    cases hsection
    obtain ⟨F', hrun, heffect, hbase⟩ := hb.tryToRemove hheld
    exact hb.run (yields_of_ok hrun
      ⟨hbase _ rfl rfl (fun h hh => heldBy_copier_ne rfl rfl hh) rfl, heffect⟩)

theorem mapped_source {fd : Nat} (hp : s.mapped fd = some p) : s.heldBy (.fd fd) = some p := by
  obtain ⟨d, hd, hp⟩ := Option.bind_eq_some_iff.mp hp
  rw [heldBy_fd hd]
  cases hstage : d.stage with
  | published q => rw [hstage] at hp; exact hp
  | usable q => rw [hstage] at hp; exact hp
  | closing q => rw [hstage] at hp; exact hp
  | unhooked q => rw [hstage] at hp; exact hp
  | opened => rw [hstage] at hp; cases hp
  | attached q => rw [hstage] at hp; cases hp
  | erased q => rw [hstage] at hp; cases hp
  | released => rw [hstage] at hp; cases hp

theorem base_stepBackup (hb : Base hash exact s) {a : Action}
    (hstep : stepBackup hash s a = some s') : Base hash exact s' ∧ Effect s a s'.files := by
  cases backupStep_of_stepBackup hstep with
  | start D hidle _ hs' =>
    subst hs'
    exact hb.moveBackup rfl rfl rfl (by rw [hidle]; rfl) rfl
  | prepare opened created i D source hi _ _ hmapped hsection =>
    cases hsection
    refine hb.run (yields_mono (hb.prepare (a := .prepareNext opened created)
      (hb.held _ _ (mapped_source hmapped)) D opened created) fun r hr => ?_)
    obtain ⟨heffect, hbase⟩ := hr
    obtain ⟨files, result⟩ := r
    cases result with
    | next => exact ⟨hbase.backup rfl rfl rfl (by rw [hi]; rfl) rfl, heffect⟩
    | out => exact ⟨hbase.backup rfl rfl rfl (by rw [hi]; rfl) rfl, heffect⟩
    | failed => exact ⟨hbase.backup rfl rfl rfl (by rw [hi]; rfl) rfl, heffect⟩
  | prepareSkip opened created i D hi _ _ _ hs' =>
    subst hs'
    exact hb.moveBackup rfl rfl rfl (by rw [hi]; rfl) rfl
  | prepared opened created i D hi _ _ hs' =>
    subst hs'
    exact hb.moveBackup rfl rfl rfl (by rw [hi]; rfl) rfl
  | copierStart i file D source destination hrunning _ _ hsection =>
    cases hsection
    have hnone : s.heldBy .copier = none := by rw [State.heldBy, hrunning]; rfl
    obtain ⟨p, F', hrun, heffect, -, hbase⟩ := hb.getOrCreate (pathcat source file) hnone
    exact hb.run (yields_of_ok hrun
      ⟨hbase _ rfl rfl (fun h hh => heldBy_copier_ne rfl rfl hh) rfl, heffect⟩)
  | stopCopy hrunning hs' =>
    subst hs'
    exact hb.moveBackup rfl rfl rfl (by rw [hrunning]; rfl) rfl
  | endSession hstopping _ hs' =>
    subst hs'
    exact hb.moveBackup rfl rfl rfl (by rw [hstopping]; rfl) rfl
  | disable i source hi _ hmapped hsection =>
    cases hsection
    obtain ⟨F', hrun, heffect, hbase⟩ :=
      hb.unhook (hb.held _ _ (mapped_source hmapped)) (Or.inr ⟨i, hi⟩)
    exact hb.run (yields_of_ok hrun
      ⟨hbase.backup rfl rfl rfl (by rw [hi]; rfl) rfl, heffect⟩)
  | disableSkip i hi _ _ hs' =>
    subst hs'
    exact hb.moveBackup rfl rfl rfl (by rw [hi]; rfl) rfl
  | disabled i hi _ hs' =>
    subst hs'
    exact hb.moveBackup rfl rfl rfl (by rw [hi]; rfl) rfl
  | error hs' =>
    subst hs'
    exact hb.still rfl (fun _ => rfl) rfl
  | copier c a hc hcopier => exact base_copierStep hb hc hcopier

/-- A step belongs to one of the parties, and there was no fault before it. -/
theorem step_cases {a : Action} (hstep : step hash s a = some s') :
    s.fault = none ∧ (stepOpen hash s a = some s' ∨ stepClose hash s a = some s' ∨
      stepFileOp hash s a = some s' ∨ stepThread s a = some s' ∨ stepBackup hash s a =
        some s') := by
  unfold step at hstep
  by_cases hfault : s.fault.isSome
  · rw [if_pos hfault] at hstep
    cases hstep
  · rw [if_neg hfault] at hstep
    refine ⟨by simpa using hfault, ?_⟩
    cases a with
    | openReal | openAttach | openPublish | openCapture => exact Or.inl hstep
    | closeBegin | closeUnhook | closeErase | closeRelease | closeReal =>
      exact Or.inr (Or.inl hstep)
    | unlinkStart | unlinkReal | unlinkHold | unlinkFinish | renameStart | renameReal
    | renameCapture => exact Or.inr (Or.inr (Or.inl hstep))
    | call | fetch | use => exact Or.inr (Or.inr (Or.inr (Or.inl hstep)))
    | _ => exact Or.inr (Or.inr (Or.inr (Or.inr hstep)))

/-- Every step keeps the references and has one effect on the objects. -/
theorem base_step (hb : Base hash exact s) (hnamed : s.Renamed) {a : Action}
    (hrename : RenameFits hash s a) (hunlink : exact → UnlinkOk s a)
    (hstep : step hash s a = some s') : Base hash exact s' ∧ Effect s a s'.files := by
  obtain ⟨-, hopen | hclose | hop | hthread | hbackup⟩ := step_cases hstep
  · exact base_stepOpen hb hopen
  · exact base_stepClose hb hclose
  · exact base_stepFileOp hb hnamed hrename hunlink hop
  · exact base_stepThread hb hthread
  · exact base_stepBackup hb hbackup

end

end TokuBackup.Lifecycle
