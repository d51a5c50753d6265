import TokuBackup.Lifecycle.Unlinked

/-!
# Destinations that are missing

A captured `unlink` and a captured `rename` go on with the destination of the source file
that they found under the path. `try_to_create_destination_file` returns `0` also for a
source file that is marked as unlinked, and creates nothing. Such a source file stays in the
table under its path as long as others hold it, and is then the one that is found for a new
file of that path.
-/

namespace TokuBackup.Lifecycle

open Kernel Table Lib

section

variable {hash : Path → Nat} {s s₀ : State} {a : Action} {F F' : Files} {p : Ptr}

/-! ## The destination that is used -/

/-- `target` as `file_hash_table::rename` leaves it before it uses the destination. -/
def renamedTo (F : Files) (target : Ptr) (new_path : Path) : Files :=
  F.modify target fun f => { f with fullPath := some new_path }

/-- The action is a captured `unlink` or `rename` in which `try_to_create_destination_file`
returns `0`, and `get_destination()` is then `d` where `dest->unlink()` or
`dest_file->rename()` is called on it. -/
inductive Dereferences (hash : Path → Nat) (s : State) : Action → Option DestinationFile → Prop
  | unlink {path dest_path : Path} {source : Ptr} {D : DirectorySet} {created unlinked : Bool}
      {F' : Files} : s.fileOp = .unlinkHeld path source → s.backup.exclusive = false →
      s.shouldCaptureUnlink path = some D → s.files.dest source = none →
      D.translatePrefixOfRealpath path = some dest_path →
      s.files.tryToCreateDestinationFile source dest_path created = .ok (true, F') →
      Dereferences hash s (.unlinkFinish created unlinked) (F'.dest source)
  | rename {old_path new_path old_dest : Path} {target : Ptr} {D : DirectorySet}
      {created renamed enoent : Bool} {F₁ F₂ F₃ : Files} :
      s.fileOp = .renamed old_path new_path → s.backup.exclusive = false → s.session = some D →
      s.names new_path ≠ none → D.isPrefixOfRealpath old_path = true →
      D.isPrefixOfRealpath new_path = true →
      D.translatePrefixOfRealpath old_path = some old_dest →
      s.files.getOrCreate hash old_path = .ok (target, F₁) →
      F₁.tryToCreateDestinationFile target old_dest created = .ok (true, F₂) →
      F₂.remove hash target = .ok F₃ →
      Dereferences hash s (.renameCapture created renamed enoent)
        ((renamedTo F₃ target new_path).dest target)

/-- There is a destination where one is used. -/
def HasDestination (hash : Path → Nat) (s : State) (a : Action) : Prop :=
  ∀ d, Dereferences hash s a d → d ≠ none

/-- The source file was marked by an `unlink`, and has no destination. -/
def Dead (f : SourceFile) : Prop := f.unlinked = true ∧ f.destinationFile = none

/-- A captured `unlink` or `rename` finds no dead source file under the path. When the table
counts no file at all, `remove` fails its check before the destination is used. -/
def FindsLive (hash : Path → Nat) (s : State) : Action → Prop
  | .unlinkFinish _ _ => ∀ path source D f, s.fileOp = .unlinkHeld path source →
      s.backup.exclusive = false → s.shouldCaptureUnlink path = some D →
      s.files.heap source = some f → ¬ Dead f
  | .renameCapture _ _ _ => ∀ old_path new_path target D f,
      s.fileOp = .renamed old_path new_path → s.backup.exclusive = false → s.session = some D →
      s.names new_path ≠ none → D.isPrefixOfRealpath old_path = true →
      D.isPrefixOfRealpath new_path = true → s.files.get hash old_path = .ok (some target) →
      s.files.heap target = some f → s.files.table.count ≠ 0 → ¬ Dead f
  | _ => True

/-! ## Creating a destination -/

/-- When `0` is returned there is a destination, or the source file is dead. -/
theorem dest_of_created {f : SourceFile} {path : Path} {created : Bool} (hf : F.heap p = some f)
    (h : F.tryToCreateDestinationFile p path created = .ok (true, F')) :
    F'.dest p = none ↔ Dead f := by
  obtain ⟨g, hg, -, -, ⟨rfl, hkept, -⟩ | ⟨-, hlinked, -, -, hheap⟩⟩ :=
    Files.tryToCreateDestinationFile_heap h
  · rw [hf] at hg
    cases hg
    rw [dest_of_heap hf]
    constructor
    · intro hnone
      obtain hunlinked | hsome := hkept rfl
      · exact ⟨hunlinked, hnone⟩
      · rw [hnone] at hsome
        cases hsome
    · intro hdead
      exact hdead.2
  · rw [hf] at hg
    cases hg
    constructor
    · intro hnone
      rw [Files.dest, hheap, Function.update_self] at hnone
      cases hnone
    · intro hdead
      rw [hdead.1] at hlinked
      cases hlinked

/-- Nothing is created for a dead source file. -/
theorem create_dead {f : SourceFile} (hf : F.heap p = some f) (hdead : Dead f) (path : Path)
    (created : Bool) : F.tryToCreateDestinationFile p path created = .ok (true, F) := by
  rw [Files.tryToCreateDestinationFile, hf]
  simp only [demand_some, ok_bind, hdead.1, if_true]
  rfl

/-! ## The steps of a rename -/

theorem dest_remove (h : F.remove hash p = .ok F') (new_path : Path) :
    (renamedTo F' p new_path).dest p = F.dest p := by
  obtain ⟨hheap, -, -⟩ := Files.remove_frame h
  rw [renamedTo, Files.dest, Files.modify, Files.set_heap, Function.update_self, hheap, Files.dest]
  cases F.heap p with
  | none => rfl
  | some f => rfl

/-- A file that `get` finds can be removed, also after it got another reference, unless the
table counts no file. -/
theorem remove_found_iff {f g : SourceFile} {n : Path} (hget : F.get hash n = .ok (some p))
    (hf : F.heap p = some f) (hname : g.fullPath = f.fullPath) :
    (∃ F', (F.set p (some g)).remove hash p = .ok F') ↔ F.table.count ≠ 0 := by
  have hpath : F.name p = some n := Files.name_of_get hget
  have hsame : ∀ q, (F.set p (some g)).name q = F.name q := by
    intro q
    exact Files.name_set_same hf hname
  obtain ⟨found, hscan, hfound⟩ := bind_eq_ok.mp hget
  cases found with
  | none => cases hfound
  | some x =>
    obtain ⟨previous, current⟩ := x
    have hnamed : (F.set p (some g)).named n = F.named n := by
      funext q
      rw [Files.named, Files.named, hsame]
    have hscan' : (F.set p (some g)).scan ((F.set p (some g)).named n)
        (hash n % F.table.size) = .ok (some (previous, current)) := by
      rw [hnamed]
      exact hscan
    rw [Files.remove, hsame, hpath, demand_some, ok_bind]
    simp only [Files.set_table, hscan', ok_bind]
    by_cases hcount : F.table.count = 0
    · simp only [hcount, if_true, ne_eq, not_true_eq_false, iff_false]
      rintro ⟨F', h⟩
      cases h
    · simp only [hcount, if_false, ne_eq, not_false_eq_true, iff_true]
      cases previous with
      | none => exact ⟨_, rfl⟩
      | some previous => exact ⟨_, rfl⟩

/-- A file that `get_or_create_locked` makes is not dead. -/
theorem found_of_dead {n : Path} {f : SourceFile} (h : F.getOrCreate hash n = .ok (p, F'))
    (hf : F'.heap p = some f) (hdead : Dead f) : F.get hash n = .ok (some p) ∧
      ∃ g, F.heap p = some g ∧ Dead g ∧ F' = F.set p (some f) ∧ f.fullPath = g.fullPath := by
  obtain ⟨found, hget, hrest⟩ := bind_eq_ok.mp h
  cases found with
  | some source =>
    cases hrest
    obtain ⟨g, hg, hname⟩ := live_of_name (Files.name_of_get hget)
    rw [Files.addReference, Files.modify_of_heap hg] at hf ⊢
    rw [Files.set_heap, Function.update_self] at hf
    cases hf
    exact ⟨hget, g, hg, hdead, rfl, rfl⟩
  | none =>
    obtain ⟨F₁, hput, hrest⟩ := bind_eq_ok.mp hrest
    obtain ⟨hheap, -, -⟩ := Files.put_frame hput
    cases hrest
    have hnew : F₁.heap F.fresh = some ⟨some n, 0, false, none⟩ := by
      rw [hheap]
      exact Function.update_self _ _ _
    rw [Files.addReference, Files.modify_of_heap hnew, Files.set_heap, Function.update_self] at hf
    cases hf
    cases hdead.1

/-- `get_or_create_locked` after a `get` that found a file. -/
theorem getOrCreate_found {n : Path} {f : SourceFile} (hget : F.get hash n = .ok (some p))
    (hf : F.heap p = some f) : F.getOrCreate hash n =
      .ok (p, F.set p (some { f with referenceCount := f.referenceCount + 1 })) := by
  rw [Files.getOrCreate, hget, ok_bind, ← Files.modify_of_heap hf fun f =>
    { f with referenceCount := f.referenceCount + 1 }]
  rfl

/-! ## The main result -/

theorem hasDestination_unlink {created unlinked : Bool} :
    HasDestination hash s (.unlinkFinish created unlinked) ↔
      FindsLive hash s (.unlinkFinish created unlinked) := by
  constructor
  · intro h path source D f hop hexcl hcapture hf hdead
    obtain ⟨-, -, hinside, -⟩ := State.shouldCaptureUnlink_some hcapture
    obtain ⟨dest_path, hdest⟩ := D.translate_of_prefix hinside
    have hnone : s.files.dest source = none := by rw [dest_of_heap hf, hdead.2]
    exact h _ (Dereferences.unlink hop hexcl hcapture hnone hdest
      (create_dead hf hdead dest_path created)) hnone
  · intro h d hd hnone
    cases hd with
    | @unlink path dest_path source D _ _ F' hop hexcl hcapture _ hdest hcreate =>
      obtain ⟨f, hf, -⟩ := Files.tryToCreateDestinationFile_heap hcreate
      exact h path source D f hop hexcl hcapture hf ((dest_of_created hf hcreate).mp hnone)

theorem hasDestination_rename {created renamed enoent : Bool} :
    HasDestination hash s (.renameCapture created renamed enoent) ↔
      FindsLive hash s (.renameCapture created renamed enoent) := by
  constructor
  · intro h old_path new_path target D f hop hexcl hD hname hold hnew hget hf hcount hdead
    obtain ⟨old_dest, hdest⟩ := D.translate_of_prefix hold
    let g : SourceFile := { f with referenceCount := f.referenceCount + 1 }
    have hg : (s.files.set target (some g)).heap target = some g := by
      rw [Files.set_heap, Function.update_self]
    have hcreate := create_dead hg (show Dead g from hdead) old_dest created
    obtain ⟨F₃, hremove⟩ := (remove_found_iff (g := g) hget hf rfl).mpr hcount
    refine h _ (Dereferences.rename hop hexcl hD hname hold hnew hdest (getOrCreate_found hget hf)
      hcreate hremove) ?_
    rw [dest_remove hremove, dest_of_heap hg]
    exact hdead.2
  · intro h d hd hnone
    cases hd with
    | @rename old_path new_path old_dest target D _ _ _ F₁ F₂ F₃ hop hexcl hD hname hold hnew hdest
        hfound hcreate hremove =>
      obtain ⟨f, hf, -⟩ := Files.tryToCreateDestinationFile_heap hcreate
      rw [dest_remove hremove] at hnone
      have hdead : Dead f := (dest_of_created hf hcreate).mp hnone
      obtain ⟨hget, g, hg, hdeadg, hF₁, hpath⟩ := found_of_dead hfound hf hdead
      have hF₂ : F₁ = F₂ := by
        rw [create_dead hf hdead] at hcreate
        cases hcreate
        rfl
      rw [← hF₂, hF₁] at hremove
      have hcount : s.files.table.count ≠ 0 := (remove_found_iff hget hg hpath).mp ⟨F₃, hremove⟩
      exact h old_path new_path target D g hop hexcl hD hname hold hnew hget hg hcount hdeadg

theorem hasDestination_iff : HasDestination hash s a ↔ FindsLive hash s a := by
  cases a with
  | unlinkFinish created unlinked => exact hasDestination_unlink
  | renameCapture created renamed enoent => exact hasDestination_rename
  | _ =>
    constructor
    · intro _
      trivial
    · intro _ d hd
      cases hd

/-- A use of a destination that does not exist ends the process. -/
theorem fault_of_dereferences (hfault : s.fault = none) (h : Dereferences hash s a none) :
    ∃ s', step hash s a = some s' ∧ s'.fault = some .pointer := by
  generalize hd : (none : Option DestinationFile) = d at h
  cases h with
  | @unlink path dest_path source D created unlinked F' hop hexcl hcapture hnone hdest hcreate =>
    obtain ⟨f, hf, -⟩ := Files.tryToCreateDestinationFile_heap hcreate
    have hdead : Dead f := (dest_of_created hf hcreate).mp hd.symm
    have hcaptured : captureUnlink s.files D path source created = .error .pointer := by
      rw [captureUnlink, hf, demand_some, ok_bind, hdead.2]
      simp only [Option.isSome_none, Bool.false_eq_true, if_false]
      rw [hdest, demand_some, ok_bind, create_dead hf hdead, ok_bind]
      simp only [not_true_eq_false, if_false]
      rw [hf, demand_some, ok_bind, hdead.2]
      rfl
    have hsection : unlinkSection hash s path source created unlinked = .error .pointer := by
      rw [unlinkSection, hcapture]
      simp only [hcaptured]
      rfl
    simp only [step, hfault, Option.isSome_none, stepFileOp, hop, hexcl,
      Bool.false_eq_true, if_false,
      hsection, Option.some.injEq, exists_eq_left']
    rfl
  | @rename old_path new_path old_dest target D created renamed enoent F₁ F₂ F₃ hop hexcl hD hname
      hold hnew hdest hfound hcreate hremove =>
    obtain ⟨new_dest, hnewdest⟩ := D.translate_of_prefix hnew
    obtain ⟨f, hf, -⟩ := Files.tryToCreateDestinationFile_heap hcreate
    rw [dest_remove hremove] at hd
    have hdead : Dead f := (dest_of_created hf hcreate).mp hd.symm
    rw [create_dead hf hdead] at hcreate
    cases hcreate
    obtain ⟨hheap, -, -⟩ := Files.remove_frame hremove
    have hf₃ : F₃.heap target = some f := by rw [hheap, hf]
    let o : RenameOutcome := ⟨created, some new_path, renamed, enoent⟩
    have hrename : F₁.rename hash target new_dest o = .error .pointer := by
      rw [Files.rename, hremove, ok_bind]
      simp only [Files.modify_of_heap hf₃, o, reduceCtorEq, if_false, Files.set_heap,
        Function.update_self, demand_some, ok_bind, hdead.2]
      rfl
    have hlocked : s.files.renameLocked hash old_path old_dest new_dest o = .error .pointer := by
      rw [Files.renameLocked, hfound, ok_bind]
      simp only [create_dead hf hdead, ok_bind, if_true, hrename]
      rfl
    have hcaptured : captureRename hash s.files D old_path new_path o = .error .pointer := by
      rw [captureRename, if_neg (by simp [o])]
      simp only [hold, hnew, and_self, if_true, hdest, hnewdest, demand_some, ok_bind, hlocked]
      rfl
    simp only [step, hfault, Option.isSome_none, stepFileOp, hop, hexcl,
      Bool.false_eq_true, if_false,
      hD, hname, Option.some.injEq, exists_eq_left']
    rw [hcaptured]
    rfl

/-- In every run, there is a destination at each step of a captured `unlink` or `rename` that
uses one exactly when none of these steps finds a dead source file. -/
theorem has_destination_iff (hash : Path → Nat) (s₀ : State) (as : List Action) :
    RunOk (step hash) (HasDestination hash) s₀ as ↔ RunOk (step hash) (FindsLive hash) s₀ as := by
  exact runOk_congr fun s a => hasDestination_iff

end

/-- Before the session an open file is unlinked; during it a new file is made at the path and
is unlinked, too. -/
def unlinkedTwice : List Action :=
  [.openReal 0 ['/', 's', '/', 'a'] false, .openAttach 0, .openPublish 0, .openCapture 0 true true,
    .unlinkStart ['/', 's', '/', 'a'], .unlinkReal true, .unlinkHold, .unlinkFinish true true,
    .startSession slashS, .prepareNext true true, .prepareNext true true,
    .openReal 1 ['/', 's', '/', 'a'] true, .openAttach 1, .openPublish 1, .openCapture 1 true true,
    .unlinkStart ['/', 's', '/', 'a'], .unlinkReal true, .unlinkHold]

theorem not_has_destination_unlinkedTwice :
    ¬ ∀ hash s₀ as, Initial s₀ → RunOk (step hash) (HasDestination hash) s₀ as := by
  intro h
  have hrun : ∃ s f, run (step List.length) (start true) unlinkedTwice = some s ∧
      s.fileOp = .unlinkHeld ['/', 's', '/', 'a'] 0 ∧ s.backup.exclusive = false ∧
      s.shouldCaptureUnlink ['/', 's', '/', 'a'] = some slashS ∧ s.files.heap 0 = some f ∧
      Dead f := ⟨_, _, rfl, rfl, rfl, rfl, rfl, rfl, rfl⟩
  obtain ⟨s, f, hrun, hop, hexcl, hcapture, hf, hdead⟩ := hrun
  have hok := h List.length (start true) (unlinkedTwice ++ [.unlinkFinish true true])
    (initial_start true)
  have hlast := ((runOk_append.mp hok).2 s hrun).1
  exact hasDestination_unlink.mp hlast _ 0 slashS f hop hexcl hcapture hf hdead

end TokuBackup.Lifecycle
