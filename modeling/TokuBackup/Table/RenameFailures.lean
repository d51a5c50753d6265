import TokuBackup.Table.Sound

/-!
# A rename that fails

`rename_locked` takes the target out of the table before the steps that can fail, and its
reference is given back on some exits only. `RenameIntact` says what a rename that fails should
leave behind; `rename_intact_iff` shows for which files and failures it does, in any table of
live files: two of them may have one name, as after a rename onto the name of an open file.
-/

namespace TokuBackup.Table

open Kernel Lib

/-! ## Failures -/

/-- The backup's file cannot be created. -/
def SourceFile.CreationFails (f : SourceFile) (created : Bool) : Prop :=
  f.unlinked = false ∧ f.destinationFile = none ∧ created = false

/-- The file gets no destination. -/
def SourceFile.WithoutDestination (f : SourceFile) : Prop :=
  f.unlinked = true ∧ f.destinationFile = none

section

variable (hash : Path → Nat)

/-- The file under the old path, or the new one that `get_or_create` makes. -/
def Files.targetFile (F : Files) (old_path : Path) : SourceFile :=
  match F.get hash old_path with
  | .ok (some p) => (F.heap p).getD ⟨some old_path, 0, false, none⟩
  | _ => ⟨some old_path, 0, false, none⟩

/-- The rename comes to the destination. -/
def Files.RenamesDestination (F : Files) (old_path : Path) (o : RenameOutcome) : Prop :=
  ¬ (F.targetFile hash old_path).CreationFails o.created ∧ o.realpath.isSome ∧
    ¬ (F.targetFile hash old_path).WithoutDestination

/-- What the rename leaves behind. It does not end the process. When it fails, the table has the
files that it had, in the buckets of their names and with their references; and a destination
that is not there yet is no failure. -/
structure RenameIntact (F : Files) (old_path old_dest dest_path : Path) (o : RenameOutcome) :
    Prop where
  runs : ∃ r, F.renameLocked hash old_path old_dest dest_path o = .ok r
  fails : ∀ F', F.renameLocked hash old_path old_dest dest_path o = .ok (false, F') →
    Linked hash F' ∧ (∀ q, F'.table.Mem q ↔ F.table.Mem q) ∧
      ∀ q, F.table.Mem q →
        (F'.heap q).map SourceFile.referenceCount = (F.heap q).map SourceFile.referenceCount
  ignored : F.RenamesDestination hash old_path o → o.renamed = false → o.enoent = true →
    ∃ F', F.renameLocked hash old_path old_dest dest_path o = .ok (true, F') ∧
      ∀ p m, F.get hash old_path = .ok (some p) → o.realpath = some m →
        F'.get hash m = .ok (some p)

/-- The rename comes to the destination, and this is renamed, or it is not, with an error that is
not ignored, while the table has no file under either path. -/
def RenameHarmless (F : Files) (old_path : Path) (o : RenameOutcome) : Prop :=
  F.RenamesDestination hash old_path o ∧ (o.renamed = true ∨
    (o.enoent = false ∧ F.Free old_path ∧ ∀ m, o.realpath = some m → F.Free m))

end

/-! ## The steps -/

section

variable {hash : Path → Nat} {F F' : Files} {p q : Ptr} {n m : Path} {f : SourceFile}
  {old_path old_dest dest_path : Path} {o : RenameOutcome}

/-- The target after `get_or_create`: a file of the table, or a new one. -/
structure Taken (hash : Path → Nat) (F F₁ : Files) (old_path : Path) (p : Ptr) (f₁ : SourceFile) :
    Prop where
  linked : Linked hash F₁
  mem : F₁.table.Mem p
  get : F₁.get hash old_path = .ok (some p)
  heap : F₁.heap p = some f₁
  count : f₁.referenceCount = (F.targetFile hash old_path).referenceCount + 1
  unlinked : f₁.unlinked = (F.targetFile hash old_path).unlinked
  dest : f₁.destinationFile = (F.targetFile hash old_path).destinationFile
  other : ∀ q, q ≠ p → F₁.heap q = F.heap q
  members : ∀ q, F₁.table.Mem q ↔ F.table.Mem q ∨ q = p
  found : F.table.Mem p → F.heap p = some (F.targetFile hash old_path) ∧ ¬ F.Free old_path
  new : ¬ F.table.Mem p → F.Free old_path ∧ (F.targetFile hash old_path).referenceCount = 0

theorem Linked.taken (h : Linked hash F) (old_path : Path) :
    ∃ p F₁ f₁, F.getOrCreate hash old_path = .ok (p, F₁) ∧ Taken hash F F₁ old_path p f₁ := by
  obtain ⟨p, F₁, hrun, hlinked, hcases⟩ := h.getOrCreate old_path
  have hfirst := Files.get_of_getOrCreate hrun
  rcases hcases with ⟨hp, f, hf, hname, rfl⟩ | ⟨hno, rfl, _, _, hheap, hmem⟩
  · have hname : F.name p = some old_path := by rw [Files.name_of_heap hf, hname]
    have hget : F.get hash old_path = .ok (some p) := by
      obtain hget | ⟨-, rfl⟩ := hfirst
      · exact hget
      · exact absurd (h.name_of_mem hp).1 (lt_irrefl _)
    have htarget : F.targetFile hash old_path = f := by
      rw [Files.targetFile, hget]
      dsimp only
      rw [hf, Option.getD_some]
    refine ⟨p, _, _, hrun, hlinked, hp, ?_, Function.update_self _ _ _, by rw [htarget],
      by rw [htarget], by rw [htarget], fun q hq => Function.update_of_ne hq _ _, ?_, ?_,
      fun hnot => absurd hp hnot⟩
    · have hsame : ∀ q, (F.set p (some { f with referenceCount := f.referenceCount + 1 })).name q =
          F.name q := fun q => Files.name_set_same hf rfl
      have ht : (F.set p (some { f with referenceCount := f.referenceCount + 1 })).table =
          F.table := rfl
      exact (Files.get_congr ht rfl hsame old_path).trans hget
    · intro q
      constructor
      · exact Or.inl
      · rintro (hq | rfl)
        · exact hq
        · exact hp
    · intro _
      rw [htarget]
      exact ⟨hf, fun hfree => hfree p hp hname⟩
  · have htarget : F.targetFile hash old_path = ⟨some old_path, 0, false, none⟩ := by
      rw [Files.targetFile, h.get_none hno]
    have hname : ∀ q, F₁.name q = if q = F.fresh then some old_path else F.name q :=
      fun q => Files.name_update hheap
    refine ⟨F.fresh, F₁, ⟨some old_path, 1, false, none⟩, hrun, hlinked,
      (hmem _).mpr
        (Or.inr rfl), ?_, ?_, by rw [htarget], by rw [htarget], by rw [htarget], ?_, hmem,
      ?_, ?_⟩
    · -- no other file has the name
      obtain ⟨q, hq, hqn, hget⟩ | ⟨hnone, -⟩ := hlinked.get_cases old_path
      · obtain hq | rfl := (hmem q).mp hq
        · by_cases hqf : q = F.fresh
          · rw [hget, hqf]
          · rw [hname, if_neg hqf] at hqn
            exact absurd hqn (hno q hq)
        · exact hget
      · exact absurd ((hname _).trans (if_pos rfl)) (hnone _ ((hmem _).mpr (Or.inr rfl)))
    · rw [hheap, Function.update_self]
    · intro q hq
      rw [hheap, Function.update_of_ne hq]
    · exact fun hp => absurd (h.name_of_mem hp).1 (lt_irrefl _)
    · intro _
      rw [htarget]
      exact ⟨hno, rfl⟩

theorem Taken.name {F₁ : Files} {f₁ : SourceFile} (h : Taken hash F F₁ old_path p f₁) :
    F₁.name p = some old_path := Files.name_of_get h.get

/-- The target when its destination has been seen to. -/
structure Ready (hash : Path → Nat) (F F₂ : Files) (old_path : Path) (p : Ptr) (f₂ : SourceFile) :
    Prop where
  linked : Linked hash F₂
  get : F₂.get hash old_path = .ok (some p)
  heap : F₂.heap p = some f₂
  count : f₂.referenceCount = (F.targetFile hash old_path).referenceCount + 1
  dest : f₂.destinationFile.isSome ∨ (F.targetFile hash old_path).WithoutDestination
  without : (F.targetFile hash old_path).WithoutDestination → f₂.destinationFile = none
  other : ∀ q, q ≠ p → F₂.heap q = F.heap q
  members : ∀ q, F₂.table.Mem q ↔ F.table.Mem q ∨ q = p

theorem Taken.creation_fails {F₁ : Files} {f₁ : SourceFile} (h : Taken hash F F₁ old_path p f₁)
    (old_dest : Path) {created : Bool}
    (hfails : (F.targetFile hash old_path).CreationFails created) :
    F₁.tryToCreateDestinationFile p old_dest created = .ok (false, F₁) := by
  obtain ⟨hlinked, hdest, hcreated⟩ := hfails
  rw [Files.tryToCreateDestinationFile, h.heap]
  simp [h.unlinked, h.dest, hlinked, hdest, hcreated, pure, Except.pure]

theorem Taken.ready {F₁ : Files} {f₁ : SourceFile} (h : Taken hash F F₁ old_path p f₁)
    (old_dest : Path) {created : Bool}
    (hcreates : ¬ (F.targetFile hash old_path).CreationFails created) :
    ∃ F₂ f₂, F₁.tryToCreateDestinationFile p old_dest created = .ok (true, F₂) ∧
      Ready hash F F₂ old_path p f₂ := by
  obtain ⟨ok, F₂, hrun⟩ := Files.tryToCreateDestinationFile_live h.heap old_dest created
  obtain ⟨g, hg, hfresh, htable, hcases⟩ := Files.tryToCreateDestinationFile_heap hrun
  obtain rfl : f₁ = g := Option.some.inj (h.heap.symm.trans hg)
  rcases hcases with ⟨rfl, htrue, hfalse⟩ | ⟨rfl, hlinked, hnone, _, hheap⟩
  · cases ok with
    | false =>
      obtain ⟨hcreated, hnone⟩ := hfalse rfl
      cases hu : f₁.unlinked with
      | false => exact absurd ⟨h.unlinked ▸ hu, h.dest ▸ hnone, hcreated⟩ hcreates
      | true =>
        rw [Files.tryToCreateDestinationFile, h.heap, demand_some, ok_bind, if_pos hu] at hrun
        cases hrun
    | true =>
      refine ⟨F₂, f₁, hrun, h.linked, h.get, h.heap, h.count, ?_, ?_, h.other, h.members⟩
      · rcases htrue rfl with hunlinked | hsome
        · cases hd : f₁.destinationFile with
          | some d => exact Or.inl rfl
          | none => exact Or.inr ⟨h.unlinked ▸ hunlinked, h.dest ▸ hd⟩
        · exact Or.inl hsome
      · intro hwithout
        rw [h.dest]
        exact hwithout.2
  · have hname : ∀ q, F₂.name q = F₁.name q := fun q =>
      (congrArg (fun H => (H q).bind SourceFile.fullPath) hheap).trans
        (@Files.name_set_same F₁ p q f₁ h.heap
          { f₁ with destinationFile := some ⟨F₁.freshDestination, old_dest⟩ } rfl)
    refine ⟨F₂, _, hrun, h.linked.congr htable hfresh.ge fun q _ => hname q,
      (Files.get_congr htable hfresh hname old_path).trans h.get,
        (congrFun hheap p).trans (Function.update_self _ _ _), h.count, Or.inl rfl, ?_, ?_, ?_⟩
    · intro hwithout
      rw [h.unlinked, hwithout.1] at hlinked
      cases hlinked
    · intro q hq
      rw [hheap, Function.update_of_ne hq]
      exact h.other q hq
    · intro q
      rw [htable]
      exact h.members q

/-! ## Ends of the rename -/

/-- `try_to_remove` with the last reference. -/
theorem Files.tryToRemove_last (hf : F.heap p = some f) (hone : f.referenceCount = 1) :
    ∃ g : SourceFile, g.fullPath = f.fullPath ∧ F.tryToRemove hash p =
      ((F.set p (some g)).remove hash p).map fun F' => F'.delete p := by
  let f₀ : SourceFile := { f with referenceCount := f.referenceCount - 1 }
  refine ⟨f₀.tryToRemoveDestination, ?_, ?_⟩
  · rw [SourceFile.tryToRemoveDestination]
    split_ifs <;> rfl
  · have hremove : F.removeReference p = .ok (F.set p (some f₀)) := by
      rw [Files.removeReference, hf]
      simp only [demand_some, ok_bind, hone, Nat.one_ne_zero, if_false]
      rw [Files.modify_of_heap hf]
      rfl
    have hf₀ : (F.set p (some f₀)).heap p = some f₀ := Function.update_self _ _ _
    have hzero : f₀.referenceCount = 0 := by
      change f.referenceCount - 1 = 0
      omega
    have hdest : (F.set p (some f₀)).tryToRemoveDestination p =
        .ok (F.set p (some f₀.tryToRemoveDestination)) := by
      rw [Files.tryToRemoveDestination, hf₀]
      simp only [demand_some, ok_bind]
      rw [Files.modify_of_heap hf₀, Files.set_set]
      rfl
    rw [Files.tryToRemove, hremove]
    simp only [ok_bind, hf₀, demand_some, hzero, if_true, hdest]
    cases (F.set p (some f₀.tryToRemoveDestination)).remove hash p with
    | error e => rfl
    | ok F' => rfl

/-- `remove` of a file with a name ends. -/
theorem Linked.remove_ok (h : Linked hash F) (hn : F.name p = some n) :
    ∃ F', F.remove hash p = .ok F' ∧ ∀ q, F'.table.Mem q → F.table.Mem q := by
  obtain ⟨q, -, -, hget⟩ | ⟨hno, -⟩ := h.get_cases n
  · obtain ⟨T', hrun, -, hmem⟩ := h.remove_found hn hget
    exact ⟨_, hrun, fun r hr => ((hmem r).mp hr).1⟩
  · exact ⟨F, h.remove_none hn hno, fun _ hq => hq⟩

/-- The last reference to a file that is out of the table goes: `remove` takes a file of its name
out. -/
theorem Linked.tryToRemove_other (h : Linked hash F) (hf : F.heap p = some f)
    (hone : f.referenceCount = 1) (hname : f.fullPath = some n)
    (hq : F.table.Mem q) (hqn : F.name q = some n) :
    ∃ F' r, F.tryToRemove hash p = .ok F' ∧ F.table.Mem r ∧ ¬ F'.table.Mem r := by
  obtain ⟨g, hg, hrun⟩ := @Files.tryToRemove_last hash F p f hf hone
  have hsame : ∀ q, (F.set p (some g)).name q = F.name q := fun q => Files.name_set_same hf hg
  have hlinked : Linked hash (F.set p (some g)) := h.congr rfl le_rfl fun q _ => hsame q
  obtain ⟨r, hr, -, hget⟩ | ⟨hno, -⟩ := hlinked.get_cases n
  · have hpn : (F.set p (some g)).name p = some n := by
      rw [hsame, Files.name_of_heap hf, hname]
    obtain ⟨T', hremove, -, hmem⟩ := hlinked.remove_found hpn hget
    rw [hremove] at hrun
    exact ⟨_, r, hrun, hr, fun hmem' => ((hmem r).mp hmem').2 rfl⟩
  · exact absurd ((hsame q).trans hqn) (hno q hq)

/-- `try_to_remove` puts nothing into the table. -/
theorem Linked.not_mem_tryToRemove (h : Linked hash F) (hq : ¬ F.table.Mem q)
    (hrun : F.tryToRemove hash p = .ok F') : ¬ F'.table.Mem q := by
  obtain ⟨-, -, f, hf, -, ⟨-, rfl⟩ | ⟨hone, -⟩⟩ := Files.tryToRemove_heap hrun
  · exact hq
  · obtain ⟨g, hg, hlast⟩ := @Files.tryToRemove_last hash F p f hf hone
    have hsame : ∀ q, (F.set p (some g)).name q = F.name q := fun q => Files.name_set_same hf hg
    have hlinked : Linked hash (F.set p (some g)) := h.congr rfl le_rfl fun q _ => hsame q
    rw [hlast] at hrun
    cases hn : (F.set p (some g)).name p with
    | none =>
      rw [Files.remove, hn] at hrun
      cases hrun
    | some n =>
      obtain ⟨F₁, hremove, hsub⟩ := hlinked.remove_ok hn
      rw [hremove] at hrun
      cases hrun
      exact fun hmem => hq (hsub q hmem)

/-- `try_to_remove` of a referenced file with a name ends. -/
theorem Linked.tryToRemove_ok (h : Linked hash F) (hf : F.heap p = some f)
    (hpos : 0 < f.referenceCount) (hname : f.fullPath = some n) :
    ∃ F', F.tryToRemove hash p = .ok F' := by
  by_cases hone : f.referenceCount = 1
  · obtain ⟨g, hg, hlast⟩ := @Files.tryToRemove_last hash F p f hf hone
    have hsame : ∀ q, (F.set p (some g)).name q = F.name q := fun q => Files.name_set_same hf hg
    have hlinked : Linked hash (F.set p (some g)) := h.congr rfl le_rfl fun q _ => hsame q
    obtain ⟨F₁, hremove, -⟩ := hlinked.remove_ok ((hsame p).trans
      ((Files.name_of_heap hf).trans hname))
    rw [hremove] at hlast
    exact ⟨_, hlast⟩
  · refine ⟨F.set p (some { f with referenceCount := f.referenceCount - 1 }), ?_⟩
    rw [Files.tryToRemove, Files.removeReference, hf]
    simp only [demand_some, ok_bind, if_neg (Nat.pos_iff_ne_zero.mp hpos)]
    rw [Files.modify_of_heap hf]
    change (do
      let g ← demand ((F.set p (some { f with referenceCount := f.referenceCount - 1 })).heap p)
        Fault.pointer
      _) = _
    rw [Files.set_heap, Function.update_self, demand_some, ok_bind]
    exact if_neg (by change ¬ f.referenceCount - 1 = 0; omega)

/-- The last reference to a file without a name. -/
theorem Files.tryToRemove_nameless (hf : F.heap p = some f) (hone : f.referenceCount = 1)
    (hname : f.fullPath = none) : F.tryToRemove hash p = .error .pointer := by
  obtain ⟨g, hg, hrun⟩ := @Files.tryToRemove_last hash F p f hf hone
  rw [hrun, Files.remove, Files.name_set, if_pos rfl, Option.bind_some, hg, hname]
  rfl

/-- A `rename` whose calls succeed puts the target back, under its new name. -/
theorem Linked.rename_succeeds (h : Linked hash F) (hn : F.name p = some n)
    (hget : F.get hash n = .ok (some p)) (hf : F.heap p = some f) (dest : Path)
    (hreal : o.realpath = some m) (hren : o.renamed = true) (hdest : f.destinationFile.isSome) :
    ∃ F' g, F.rename hash p dest o = .ok (true, F') ∧ Linked hash F' ∧ F'.heap p = some g ∧
      g.fullPath = some m ∧ g.referenceCount = f.referenceCount := by
  obtain ⟨d, hd⟩ := Option.isSome_iff_exists.mp hdest
  let g : SourceFile :=
    { f with fullPath := some m, destinationFile := some { d with path := dest } }
  obtain ⟨T', hrun, hlinked, hmem⟩ := h.remove_modify hn hget g
  let F₂ := ({ F with table := T' } : Files).set p (some g)
  have hname : F₂.name p = some m := by
    rw [Files.name_set, if_pos rfl]
    rfl
  have hlt : p < F₂.fresh := by
    obtain ⟨q, hq, -, hget'⟩ | ⟨-, hget'⟩ := h.get_cases n
    · rw [hget] at hget'
      cases hget'
      exact (h.name_of_mem hq).1
    · rw [hget] at hget'
      cases hget'
  obtain ⟨T'', hput, hlinked', -, -⟩ :=
    hlinked.put_new hname hlt fun hmp => ((hmem p).mp hmp).2 rfl
  refine ⟨{ F₂ with table := T'' }, g, ?_, hlinked', Function.update_self _ _ _, rfl, rfl⟩
  rw [Files.rename, hrun]
  simp only [ok_bind, hreal, reduceCtorEq, if_false]
  rw [Files.modify_of_heap (F := { F with table := T' }) hf]
  simp only [Files.set_heap, Function.update_self, demand_some, ok_bind, hd, if_pos hren]
  rw [Files.modify_of_heap (Function.update_self _ _ _), Files.set_set]
  rw [hput]
  rfl

/-! ## What is left -/

theorem renameLocked_uncreated (h : Linked hash F)
    (hfails : (F.targetFile hash old_path).CreationFails o.created) :
    ∃ p F₁ f₁, Taken hash F F₁ old_path p f₁ ∧
      F.renameLocked hash old_path old_dest dest_path o = .ok (false, F₁) := by
  obtain ⟨p, F₁, f₁, hget, htaken⟩ := h.taken old_path
  refine ⟨p, F₁, f₁, htaken, ?_⟩
  rw [Files.renameLocked, hget]
  simp only [ok_bind, htaken.creation_fails old_dest hfails]
  rfl

theorem renameLocked_created (h : Linked hash F)
    (hcreates : ¬ (F.targetFile hash old_path).CreationFails o.created) :
    ∃ p F₁ f₁ F₂ f₂, Taken hash F F₁ old_path p f₁ ∧ Ready hash F F₂ old_path p f₂ ∧
      F.renameLocked hash old_path old_dest dest_path o = (do
        let (renamed, F₃) ← F₂.rename hash p dest_path o
        let F₄ ← F₃.tryToRemove hash p
        return (renamed, F₄)) := by
  obtain ⟨p, F₁, f₁, hget, htaken⟩ := h.taken old_path
  obtain ⟨F₂, f₂, hcreate, hready⟩ := htaken.ready old_dest hcreates
  refine ⟨p, F₁, f₁, F₂, f₂, htaken, hready, ?_⟩
  rw [Files.renameLocked, hget]
  simp only [ok_bind, hcreate, if_true]

/-- A file under the old path keeps the reference that was taken, and a new one stays. -/
theorem not_intact_uncreated (h : Linked hash F)
    (hfails : (F.targetFile hash old_path).CreationFails o.created) :
    ¬ RenameIntact hash F old_path old_dest dest_path o := by
  intro hintact
  obtain ⟨p, F₁, f₁, htaken, hrun⟩ :=
    @renameLocked_uncreated hash F old_path old_dest dest_path o h hfails
  obtain ⟨_, hmem, hcount⟩ := hintact.fails F₁ hrun
  by_cases hp : F.table.Mem p
  · have hsame := hcount p hp
    rw [htaken.heap, (htaken.found hp).1, Option.map_some, Option.map_some, htaken.count] at hsame
    exact absurd (Option.some.inj hsame) (by omega)
  · exact hp ((hmem p).mp htaken.mem)

/-- What is left of a rename that fails after the target was taken out of the table. -/
theorem renameLocked_failed (h : Linked hash F)
    (hcreates : ¬ (F.targetFile hash old_path).CreationFails o.created)
    (hfail : o.realpath = none ∨ o.renamed = false)
    (hdest : o.realpath.isSome → ¬ (F.targetFile hash old_path).WithoutDestination) :
    ∃ p F₁ f₁ F₃ f₃, Taken hash F F₁ old_path p f₁ ∧ Linked hash F₃ ∧ ¬ F₃.table.Mem p ∧
      F₃.heap p = some f₃ ∧ f₃.fullPath = o.realpath ∧
      f₃.referenceCount = (F.targetFile hash old_path).referenceCount + 1 ∧
      (∀ q, q ≠ p → F₃.heap q = F.heap q) ∧
      (∀ q, F₃.table.Mem q ↔ F.table.Mem q ∧ q ≠ p) ∧
      F.renameLocked hash old_path old_dest dest_path o =
        (F₃.tryToRemove hash p).map fun F₄ => (false, F₄) := by
  obtain ⟨p, F₁, f₁, F₂, f₂, htaken, hready, hrun⟩ :=
    @renameLocked_created hash F old_path old_dest dest_path o h hcreates
  obtain ⟨F₃, hrename, hrep₃, hmem₃, hheap₃⟩ :=
    hready.linked.rename_fails (Files.name_of_get hready.get) hready.get hready.heap dest_path hfail
      fun hreal => hready.dest.resolve_right (hdest hreal)
  refine ⟨p, F₁, f₁, F₃, f₂.renamed dest_path o, htaken, hrep₃, fun hp => ((hmem₃ p).mp hp).2 rfl,
    ?_, rfl, hready.count, ?_, ?_, ?_⟩
  · rw [hheap₃, Function.update_self]
  · intro q hq
    rw [hheap₃, Function.update_of_ne hq]
    exact hready.other q hq
  · intro q
    rw [hmem₃ q, hready.members q]
    constructor
    · rintro ⟨hq | rfl, hqp⟩
      · exact ⟨hq, hqp⟩
      · exact absurd rfl hqp
    · exact fun hq => ⟨Or.inl hq.1, hq.2⟩
  · rw [hrun, hrename]
    simp only [ok_bind]
    cases F₃.tryToRemove hash p with
    | error e => rfl
    | ok F₄ => rfl

/-- A failure loses a target that was in the table. -/
theorem not_intact_found {F₃ : Files} (hp : F.table.Mem p) (hlinked : Linked hash F₃)
    (hnot : ¬ F₃.table.Mem p)
    (hrun : F.renameLocked hash old_path old_dest dest_path o =
      (F₃.tryToRemove hash p).map fun F₄ => (false, F₄)) :
    ¬ RenameIntact hash F old_path old_dest dest_path o := by
  intro hintact
  obtain ⟨r, hr⟩ := hintact.runs
  rw [hrun] at hr
  cases hremove : F₃.tryToRemove hash p with
  | error e =>
    rw [hremove] at hr
    cases hr
  | ok F₄ =>
    rw [hremove] at hrun
    exact hlinked.not_mem_tryToRemove hnot hremove (((hintact.fails F₄ hrun).2.1 p).mpr hp)

/-- The destination is not renamed: the target is lost, unless it was new. -/
theorem intact_iff_of_not_renamed (h : Linked hash F)
    (hcreates : ¬ (F.targetFile hash old_path).CreationFails o.created)
    (hreal : o.realpath = some m)
    (hwithout : ¬ (F.targetFile hash old_path).WithoutDestination) (hren : o.renamed = false) :
    RenameIntact hash F old_path old_dest dest_path o ↔
      o.enoent = false ∧ F.Free old_path ∧ F.Free m := by
  obtain ⟨p, F₁, f₁, F₃, f₃, htaken, hrep, hnot, hf₃, hname, hcount, hother, hmem, hrun⟩ :=
    @renameLocked_failed hash F old_path old_dest dest_path o h hcreates (Or.inr hren)
      fun _ => hwithout
  have hsome : o.realpath.isSome := by rw [hreal]; rfl
  cases heno : o.enoent with
  | true =>
    refine iff_of_false (fun hintact => ?_) (by simp)
    obtain ⟨F', hrun', _⟩ := hintact.ignored ⟨hcreates, hsome, hwithout⟩ hren heno
    rw [hrun] at hrun'
    cases hremove : F₃.tryToRemove hash p with
    | error e =>
      rw [hremove] at hrun'
      cases hrun'
    | ok F₄ =>
      rw [hremove] at hrun'
      cases hrun'
  | false =>
    by_cases hp : F.table.Mem p
    · refine iff_of_false (not_intact_found hp hrep hnot hrun) ?_
      exact fun hfree => (htaken.found hp).2 hfree.2.1
    · obtain ⟨hold, hzero⟩ := htaken.new hp
      rw [hzero] at hcount
      have hnames : ∀ q, F.table.Mem q → F₃.table.Mem q ∧ F₃.name q = F.name q := by
        intro q hq
        have hqp : q ≠ p := by
          rintro rfl
          exact hp hq
        exact ⟨(hmem q).mpr ⟨hq, hqp⟩, by rw [Files.name, hother q hqp, ← Files.name]⟩
      constructor
      · intro hintact
        refine ⟨rfl, hold, fun q hq hqm => ?_⟩
        obtain ⟨hq₃, hqn⟩ := hnames q hq
        obtain ⟨F₄, r, hremove, hr, hgone⟩ :=
          hrep.tryToRemove_other hf₃ hcount (hname.trans hreal) hq₃ (hqn.trans hqm)
        rw [hremove] at hrun
        exact hgone (((hintact.fails F₄ hrun).2.1 r).mpr ((hmem r).mp hr).1)
      · rintro ⟨_, _, hfree⟩
        have hfree₃ : ∀ q, F₃.table.Mem q → F₃.name q ≠ some m := by
          intro q hq hqm
          obtain ⟨hq', _⟩ := (hmem q).mp hq
          exact hfree q hq' ((hnames q hq').2.symm.trans hqm)
        obtain ⟨F₄, hremove, hrep₄, htable⟩ := hrep.tryToRemove_absent hnot hf₃ (by omega)
          fun _ => ⟨m, hname.trans hreal, hfree₃⟩
        obtain ⟨_, _, g, hg, _, hcases⟩ := Files.tryToRemove_heap hremove
        obtain rfl : f₃ = g := Option.some.inj (hf₃.symm.trans hg)
        have hheap : F₄.heap = Function.update F₃.heap p none := by
          rcases hcases with ⟨hmore, _⟩ | ⟨_, hheap⟩
          · omega
          · exact hheap
        rw [hremove] at hrun
        refine ⟨⟨_, hrun⟩, fun F' hrun' => ?_, fun _ _ henoent => ?_⟩
        · obtain rfl : F₄ = F' := by
            rw [hrun] at hrun'
            cases hrun'
            rfl
          refine ⟨hrep₄, fun q => ?_, fun q hq => ?_⟩
          · rw [htable, hmem q]
            refine ⟨And.left, fun hq => ⟨hq, ?_⟩⟩
            rintro rfl
            exact hp hq
          · have hqp : q ≠ p := by
              rintro rfl
              exact hp hq
            rw [hheap, Function.update_of_ne hqp, hother q hqp]
        · rw [heno] at henoent
          cases henoent

/-- A rename that fails leaves the table as it was exactly when the destination is reached, and it
is renamed, or it is not, with another error than `ENOENT`, while the table has no file under
either path. -/
theorem rename_intact_iff (hash : Path → Nat) (F : Files) (old_path old_dest dest_path : Path)
    (o : RenameOutcome) (h : Linked hash F) :
    RenameIntact hash F old_path old_dest dest_path o ↔ RenameHarmless hash F old_path o := by
  by_cases hcreates : (F.targetFile hash old_path).CreationFails o.created
  · exact iff_of_false (not_intact_uncreated h hcreates) fun hharmless => hharmless.1.1 hcreates
  cases hreal : o.realpath with
  | none =>
    refine iff_of_false ?_ fun hharmless => ?_
    · obtain ⟨p, F₁, f₁, F₃, f₃, htaken, hrep, hnot, hf₃, hname, hcount, _, _, hrun⟩ :=
        @renameLocked_failed hash F old_path old_dest dest_path o h hcreates (Or.inl hreal)
          (by rw [hreal]; simp)
      by_cases hp : F.table.Mem p
      · exact not_intact_found hp hrep hnot hrun
      · intro hintact
        rw [(htaken.new hp).2] at hcount
        rw [Files.tryToRemove_nameless hf₃ hcount (hname.trans hreal)] at hrun
        obtain ⟨r, hr⟩ := hintact.runs
        rw [hrun] at hr
        cases hr
    · have hsome := hharmless.1.2.1
      rw [hreal] at hsome
      cases hsome
  | some m =>
    have hsome : o.realpath.isSome := by rw [hreal]; rfl
    by_cases hwithout : (F.targetFile hash old_path).WithoutDestination
    · refine iff_of_false (fun hintact => ?_) fun hharmless => hharmless.1.2.2 hwithout
      obtain ⟨p, F₁, f₁, F₂, f₂, _, hready, hrun⟩ :=
        @renameLocked_created hash F old_path old_dest dest_path o h hcreates
      rw [hready.linked.rename_null (Files.name_of_get hready.get) hready.get hready.heap hreal
        (hready.without hwithout)] at hrun
      obtain ⟨r, hr⟩ := hintact.runs
      rw [hrun] at hr
      cases hr
    · cases hren : o.renamed with
      | true =>
        refine iff_of_true ?_ ⟨⟨hcreates, hsome, hwithout⟩, Or.inl hren⟩
        obtain ⟨p, F₁, f₁, F₂, f₂, _, hready, hrun⟩ :=
          @renameLocked_created hash F old_path old_dest dest_path o h hcreates
        obtain ⟨F₃, g, hrename, hlinked, hg, hgname, hgcount⟩ :=
          hready.linked.rename_succeeds (Files.name_of_get hready.get) hready.get hready.heap
            dest_path hreal hren (hready.dest.resolve_right hwithout)
        obtain ⟨F₄, hremove⟩ :=
          hlinked.tryToRemove_ok hg (by rw [hgcount, hready.count]; exact Nat.succ_pos _) hgname
        rw [hrename] at hrun
        simp only [ok_bind, hremove] at hrun
        refine ⟨⟨_, hrun⟩, fun F' hrun' => ?_, fun _ hnot => ?_⟩
        · rw [hrun] at hrun'
          cases hrun'
        · rw [hren] at hnot
          cases hnot
      | false =>
        rw [intact_iff_of_not_renamed h hcreates hreal hwithout hren]
        constructor
        · rintro ⟨heno, hold, hnew⟩
          refine ⟨⟨hcreates, hsome, hwithout⟩, Or.inr ⟨heno, hold, fun m' hm' => ?_⟩⟩
          rw [hreal] at hm'
          cases hm'
          exact hnew
        · rintro ⟨-, hrenamed | ⟨heno, hold, hnew⟩⟩
          · rw [hren] at hrenamed
            cases hrenamed
          · exact ⟨heno, hold, hnew m hreal⟩

end

/-! ## One open file -/

/-- The table after the file `a` has been opened. -/
theorem exists_oneOpen :
    ∃ F p, Linked List.length F ∧ F.heap p = some ⟨some ['a'], 1, false, none⟩ ∧
      F.get List.length ['a'] = .ok (some p) := by
  obtain ⟨p, F, _, hrep, ⟨hp, _⟩ | ⟨_, rfl, _, _, hheap, hmem⟩⟩ :=
    (@rep_new List.length).getOrCreate ['a']
  · exact absurd hp (not_mem_new p)
  have hf : F.heap Files.new.fresh = some ⟨some ['a'], 1, false, none⟩ := by
    rw [hheap, Function.update_self]
  have hin : F.table.Mem Files.new.fresh := (hmem _).mpr (Or.inr rfl)
  exact ⟨F, _, hrep.toLinked, hf, hrep.get_some hin (Files.name_of_heap hf)⟩

/-- A rename of the open file whose steps all succeed. -/
theorem rename_intact_open :
    ∃ F : Files, Linked List.length F ∧
      RenameIntact List.length F ['a'] ['x', 'a'] ['x', 'b'] ⟨true, some ['b'], true, false⟩ := by
  obtain ⟨F, p, hlinked, hf, hget⟩ := exists_oneOpen
  have htarget : F.targetFile List.length ['a'] = ⟨some ['a'], 1, false, none⟩ := by
    rw [Files.targetFile, hget]
    dsimp only
    rw [hf, Option.getD_some]
  refine ⟨F, hlinked, (rename_intact_iff _ _ _ _ _ _ hlinked).mpr ⟨⟨?_, rfl, ?_⟩, Or.inl rfl⟩⟩
  · exact fun hfails => absurd hfails.2.2 (by simp)
  · rw [htarget]
    exact fun hwithout => absurd hwithout.1 Bool.false_ne_true

/-- The open file is renamed before the copier has made its copy, so that there is nothing to
rename in the backup. -/
theorem not_rename_intact_enoent :
    ¬ ∀ (hash : Path → Nat) (F : Files) (old_path old_dest dest_path : Path) (o : RenameOutcome),
      Linked hash F → RenameIntact hash F old_path old_dest dest_path o := by
  intro hall
  obtain ⟨F, p, hlinked, hf, hget⟩ := exists_oneOpen
  have htarget : F.targetFile List.length ['a'] = ⟨some ['a'], 1, false, none⟩ := by
    rw [Files.targetFile, hget]
    dsimp only
    rw [hf, Option.getD_some]
  have hintact := hall List.length F ['a'] ['x', 'a'] ['x', 'b'] ⟨true, some ['b'], false, true⟩
    hlinked
  have hharmless := (intact_iff_of_not_renamed hlinked
    (fun hfails => absurd hfails.2.2 (by simp)) rfl
    (fun hwithout => by rw [htarget] at hwithout; cases hwithout.1) rfl).mp hintact
  cases hharmless.1

end TokuBackup.Table
