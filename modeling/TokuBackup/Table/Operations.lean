import TokuBackup.Table.Representation

/-!
# The operations on files

What the operations under the table's mutex do. The first half says what they do to the
objects, in any table; the second half what they do to a sound table. Together they are the
specifications that everything above the table uses.
-/

namespace TokuBackup.Table

open Kernel Lib

variable {hash : Path → Nat} {F F' : Files} {p q : Ptr} {n : Path} {f : SourceFile}

/-! ## Names -/

@[simp] theorem Files.set_heap (o : Option SourceFile) :
    (F.set p o).heap = Function.update F.heap p o := rfl

@[simp] theorem Files.set_table (o : Option SourceFile) : (F.set p o).table = F.table := rfl

@[simp] theorem Files.set_fresh (o : Option SourceFile) : (F.set p o).fresh = F.fresh := rfl

@[simp] theorem Files.set_freshDestination (o : Option SourceFile) :
    (F.set p o).freshDestination = F.freshDestination := rfl

@[simp] theorem Files.set_set (o o' : Option SourceFile) : (F.set p o).set p o' = F.set p o' := by
  simp only [Files.set, Function.update_idem]

theorem Files.modify_of_heap (hf : F.heap p = some f) (g : SourceFile → SourceFile) :
    F.modify p g = F.set p (some (g f)) := by
  rw [Files.modify, hf, Option.map_some]

theorem Files.name_of_heap (h : F.heap p = some f) : F.name p = f.fullPath := by
  rw [Files.name, h, Option.bind_some]

theorem Files.name_update {o : Option SourceFile} (h : F'.heap = Function.update F.heap p o) :
    F'.name q = if q = p then o.bind SourceFile.fullPath else F.name q := by
  rw [Files.name, h]
  split
  · rename_i hq
    rw [hq, Function.update_self]
  · rename_i hq
    rw [Function.update_of_ne hq, Files.name]

theorem Files.name_set (o : Option SourceFile) :
    (F.set p o).name q = if q = p then o.bind SourceFile.fullPath else F.name q :=
  Files.name_update rfl

/-- A change of a file that keeps its name keeps all names. -/
theorem Files.name_set_same (hf : F.heap p = some f) {g : SourceFile}
    (hg : g.fullPath = f.fullPath) : (F.set p (some g)).name q = F.name q := by
  rw [Files.name_set]
  split
  · rename_i hq
    rw [hq, Files.name_of_heap hf, Option.bind_some, hg]
  · rfl

/-! ## Effects on the objects -/

theorem Files.maybeResize_frame (h : F.maybeResize hash = .ok F') :
    F'.heap = F.heap ∧ F'.fresh = F.fresh ∧ F'.freshDestination = F.freshDestination := by
  rw [Files.maybeResize] at h
  split at h
  · obtain ⟨T, -, hT⟩ := bind_eq_ok.mp h
    cases hT
    exact ⟨rfl, rfl, rfl⟩
  · cases h
    exact ⟨rfl, rfl, rfl⟩

theorem Files.put_frame (h : F.put hash p = .ok F') :
    F'.heap = F.heap ∧ F'.fresh = F.fresh ∧ F'.freshDestination = F.freshDestination := by
  obtain ⟨name, -, h⟩ := bind_eq_ok.mp h
  obtain ⟨found, -, h⟩ := bind_eq_ok.mp h
  cases found with
  | some x =>
    cases h
    exact ⟨rfl, rfl, rfl⟩
  | none =>
    have hframe := Files.maybeResize_frame (show Files.maybeResize hash _ = .ok F' from h)
    exact hframe

theorem Files.remove_frame (h : F.remove hash p = .ok F') :
    F'.heap = F.heap ∧ F'.fresh = F.fresh ∧ F'.freshDestination = F.freshDestination := by
  obtain ⟨name, -, h⟩ := bind_eq_ok.mp h
  obtain ⟨found, -, h⟩ := bind_eq_ok.mp h
  cases found with
  | none =>
    cases h
    exact ⟨rfl, rfl, rfl⟩
  | some x =>
    obtain ⟨previous, current⟩ := x
    simp only at h
    split at h
    · cases h
    · cases previous with
      | none =>
        cases h
        exact ⟨rfl, rfl, rfl⟩
      | some previous =>
        cases h
        exact ⟨rfl, rfl, rfl⟩

theorem Files.name_of_get (h : F.get hash n = .ok (some p)) : F.name p = some n := by
  obtain ⟨found, hscan, h⟩ := bind_eq_ok.mp h
  cases found with
  | none => cases h
  | some x =>
    cases h
    have htest := Lib.test_of_scan (demand_eq_ok.mp hscan)
    obtain ⟨m, hm, hmn⟩ := Option.map_eq_some_iff.mp htest
    rw [hm, of_decide_eq_true hmn]

/-- `get_or_create` takes a reference to the file that it found or made. -/
theorem Files.getOrCreate_heap (h : F.getOrCreate hash n = .ok (p, F')) :
    F'.freshDestination = F.freshDestination ∧
      ((∃ f, F.heap p = some f ∧ f.fullPath = some n ∧
        F' = F.set p (some { f with referenceCount := f.referenceCount + 1 })) ∨
      (p = F.fresh ∧ F'.fresh = F.fresh + 1 ∧
        F'.heap = Function.update F.heap p (some ⟨some n, 1, false, none⟩))) := by
  obtain ⟨found, hget, h⟩ := bind_eq_ok.mp h
  cases found with
  | some source =>
    cases h
    obtain ⟨f, hf, hname⟩ := live_of_name (Files.name_of_get hget)
    exact ⟨rfl, Or.inl ⟨f, hf, hname, by rw [Files.addReference, Files.modify_of_heap hf]⟩⟩
  | none =>
    obtain ⟨F₁, hput, h⟩ := bind_eq_ok.mp h
    obtain ⟨hheap, hfresh, hdest⟩ := Files.put_frame hput
    cases h
    refine ⟨hdest, Or.inr ⟨rfl, hfresh, ?_⟩⟩
    have hnew : F₁.heap F.fresh = some ⟨some n, 0, false, none⟩ := by
      rw [hheap]
      exact Function.update_self _ _ _
    rw [Files.addReference, Files.modify_of_heap hnew, Files.set_heap, hheap]
    exact Function.update_idem _ _ _

theorem Files.name_of_getOrCreate {F F' : Files} (h : F.getOrCreate hash n = .ok (p, F')) :
    F'.name p = some n := by
  obtain ⟨-, ⟨f, -, hname, rfl⟩ | ⟨-, -, hheap⟩⟩ := Files.getOrCreate_heap h
  · rw [Files.name_set, if_pos rfl]
    exact hname
  · rw [Files.name_update hheap, if_pos rfl]
    rfl

/-- `get_or_create` returns what `get` finds, or else a new pointer. -/
theorem Files.get_of_getOrCreate (h : F.getOrCreate hash n = .ok (p, F')) :
    F.get hash n = .ok (some p) ∨ F.get hash n = .ok none ∧ p = F.fresh := by
  obtain ⟨found, hget, h⟩ := bind_eq_ok.mp h
  cases found with
  | some source =>
    cases h
    exact Or.inl hget
  | none =>
    obtain ⟨F₁, -, h⟩ := bind_eq_ok.mp h
    cases h
    exact Or.inr ⟨hget, rfl⟩

theorem Files.removeReference_heap (h : F.removeReference p = .ok F') :
    ∃ f, F.heap p = some f ∧ 0 < f.referenceCount ∧
      F' = F.set p (some { f with referenceCount := f.referenceCount - 1 }) := by
  obtain ⟨f, hf, h⟩ := bind_eq_ok.mp h
  have hf := demand_eq_ok.mp hf
  simp only at h
  split at h
  · cases h
  · rename_i hpos
    cases h
    exact ⟨f, hf, Nat.pos_of_ne_zero hpos, Files.modify_of_heap hf _⟩

theorem Files.tryToRemoveDestination_heap (h : F.tryToRemoveDestination p = .ok F') :
    ∃ f, F.heap p = some f ∧ F' = F.set p (some f.tryToRemoveDestination) := by
  obtain ⟨f, hf, h⟩ := bind_eq_ok.mp h
  have hf := demand_eq_ok.mp hf
  cases h
  exact ⟨f, hf, Files.modify_of_heap hf _⟩

/-- `try_to_remove` gives a reference back, and deletes the file with the last one. -/
theorem Files.tryToRemove_heap (h : F.tryToRemove hash p = .ok F') :
    F'.fresh = F.fresh ∧ F'.freshDestination = F.freshDestination ∧
      ∃ f, F.heap p = some f ∧ 0 < f.referenceCount ∧
        ((1 < f.referenceCount ∧
            F' = F.set p (some { f with referenceCount := f.referenceCount - 1 })) ∨
          (f.referenceCount = 1 ∧ F'.heap = Function.update F.heap p none)) := by
  obtain ⟨F₁, h₁, h⟩ := bind_eq_ok.mp h
  obtain ⟨f, hf, hpos, rfl⟩ := Files.removeReference_heap h₁
  simp only [Files.set_heap, Function.update_self, demand_some, ok_bind] at h
  split at h
  · rename_i hzero
    obtain ⟨F₂, h₂, h⟩ := bind_eq_ok.mp h
    obtain ⟨f₂, -, rfl⟩ := Files.tryToRemoveDestination_heap h₂
    obtain ⟨F₃, h₃, h⟩ := bind_eq_ok.mp h
    obtain ⟨hheap, hfresh, hdest⟩ := Files.remove_frame h₃
    cases h
    refine ⟨hfresh, hdest, f, hf, hpos, Or.inr ⟨by omega, ?_⟩⟩
    rw [Files.delete, Files.set_heap, hheap]
    simp only [Files.set_heap, Function.update_idem]
  · rename_i hmore
    cases h
    exact ⟨rfl, rfl, f, hf, hpos, Or.inl ⟨by omega, rfl⟩⟩

/-- `try_to_create_destination_file` gives a file that is not unlinked a destination, if
the backup file can be created. -/
theorem Files.tryToCreateDestinationFile_heap {path : Path} {created ok : Bool}
    (h : F.tryToCreateDestinationFile p path created = .ok (ok, F')) :
    ∃ f, F.heap p = some f ∧ F'.fresh = F.fresh ∧ F'.table = F.table ∧
      ((F' = F ∧ (ok = true → f.unlinked = true ∨ f.destinationFile.isSome = true) ∧
          (ok = false → created = false ∧ f.destinationFile = none)) ∨
        (ok = true ∧ f.unlinked = false ∧ f.destinationFile = none ∧
          F'.freshDestination = F.freshDestination + 1 ∧
          F'.heap = Function.update F.heap p
            (some { f with destinationFile := some ⟨F.freshDestination, path⟩ }))) := by
  obtain ⟨f, hf, h⟩ := bind_eq_ok.mp h
  have hf := demand_eq_ok.mp hf
  refine ⟨f, hf, ?_⟩
  simp only at h
  split at h
  · rename_i hu
    cases h
    exact ⟨rfl, rfl, Or.inl ⟨rfl, fun _ => Or.inl hu, by simp⟩⟩
  · rename_i hu
    split at h
    · rename_i hd
      cases h
      exact ⟨rfl, rfl, Or.inl ⟨rfl, fun _ => Or.inr hd, by simp⟩⟩
    · rename_i hd
      split at h
      · cases h
        refine ⟨rfl, rfl, Or.inr ⟨rfl, by simpa using hu, by simpa using hd, rfl, ?_⟩⟩
        rw [Files.modify_of_heap hf]
        rfl
      · rename_i hc
        cases h
        refine ⟨rfl, rfl, Or.inl ⟨rfl, by simp, fun _ => ⟨by simpa using hc, ?_⟩⟩⟩
        simpa using hd

theorem Files.tryToCreateDestinationFile_live (hf : F.heap p = some f) (path : Path)
    (created : Bool) : ∃ ok F', F.tryToCreateDestinationFile p path created = .ok (ok, F') := by
  rw [Files.tryToCreateDestinationFile, hf]
  simp only [demand_some, ok_bind]
  split_ifs <;> exact ⟨_, _, rfl⟩

/-- The name and the destination of a file that `rename` was called on. -/
def SourceFile.renamed (f : SourceFile) (dest : Path) (o : RenameOutcome) : SourceFile :=
  { f with
    fullPath := o.realpath
    destinationFile := if o.realpath.isSome ∧ (o.renamed ∨ o.enoent) then
      f.destinationFile.map fun d => { d with path := dest } else f.destinationFile }

/-- `rename` changes the name of the target and the path of its destination. -/
theorem Files.rename_heap {dest : Path} {o : RenameOutcome} {ok : Bool}
    (h : F.rename hash p dest o = .ok (ok, F')) :
    F'.fresh = F.fresh ∧ F'.freshDestination = F.freshDestination ∧
      (ok = true → o.realpath.isSome ∧ o.renamed = true) ∧
      ∃ f, F.heap p = some f ∧ (o.realpath.isSome → f.destinationFile.isSome) ∧
        F'.heap = Function.update F.heap p (some (f.renamed dest o)) := by
  obtain ⟨F₁, hremove, h⟩ := bind_eq_ok.mp h
  obtain ⟨hheap, hfresh, hdest⟩ := Files.remove_frame hremove
  obtain ⟨name, hname, -⟩ := bind_eq_ok.mp hremove
  obtain ⟨f, hf, -⟩ := live_of_name (demand_eq_ok.mp hname)
  have hf₁ : F₁.heap p = some f := by rw [hheap, hf]
  rw [Files.modify_of_heap hf₁] at h
  cases hreal : o.realpath with
  | none =>
    simp only [hreal, if_true] at h
    cases h
    refine ⟨hfresh, hdest, by simp, f, hf, by simp, ?_⟩
    rw [Files.set_heap, hheap]
    simp [SourceFile.renamed, hreal]
  | some m =>
    simp only [hreal, Files.set_heap, Function.update_self, demand_some, ok_bind, reduceCtorEq,
      if_false] at h
    obtain ⟨d, hd, h⟩ := bind_eq_ok.mp h
    have hd := demand_eq_ok.mp hd
    rw [Files.modify_of_heap (Function.update_self _ _ _)] at h
    by_cases hren : o.renamed = true
    · rw [if_pos hren] at h
      obtain ⟨F₂, hput, h⟩ := bind_eq_ok.mp h
      obtain ⟨hheap₂, hfresh₂, hdest₂⟩ := Files.put_frame hput
      cases h
      refine ⟨hfresh₂.trans hfresh, hdest₂.trans hdest, fun _ => ⟨rfl, hren⟩, f, hf,
        fun _ => by rw [hd]; rfl, ?_⟩
      rw [hheap₂, Files.set_set, Files.set_heap, hheap]
      simp [SourceFile.renamed, hreal, hren, hd]
    · rw [if_neg hren] at h
      cases h
      by_cases heno : o.enoent = true
      · refine ⟨by simp [heno, hfresh], by simp [heno, hdest], by simp, f, hf,
          fun _ => by rw [hd]; rfl, ?_⟩
        simp [SourceFile.renamed, hreal, heno, hd, hheap]
      · refine ⟨by simp [heno, hfresh], by simp [heno, hdest], by simp, f, hf,
          fun _ => by rw [hd]; rfl, ?_⟩
        simp [SourceFile.renamed, hreal, hren, heno, hheap]

/-! ## Effects on a table of live files -/

/-- A sound table that only loses files stays sound. -/
theorem Rep.of_linked (h : Rep hash F) (h' : Linked hash F')
    (hold : ∀ q n, F'.table.Mem q → F'.name q = some n → F.table.Mem q ∧ F.name q = some n) :
    Rep hash F' := by
  refine ⟨h', fun p q n hp hq hpn hqn => ?_⟩
  obtain ⟨hp, hpn⟩ := hold p n hp hpn
  obtain ⟨hq, hqn⟩ := hold q n hq hqn
  exact h.inj p q n hp hq hpn hqn

/-- `get` depends on the table and the names. -/
theorem Files.get_congr (ht : F'.table = F.table) (hfresh : F'.fresh = F.fresh)
    (hname : ∀ q, F'.name q = F.name q) (n : Path) : F'.get hash n = F.get hash n := by
  have hnamed : F'.named n = F.named n := by
    funext q
    rw [Files.named, Files.named, hname]
  rw [Files.get, Files.get, Files.scan, Files.scan, hnamed, ht, hfresh]

/-- `get_or_create` succeeds; it takes a reference to the first file of the table that has the
name, or adds a new one. -/
theorem Linked.getOrCreate (h : Linked hash F) (n : Path) :
    ∃ p F', F.getOrCreate hash n = .ok (p, F') ∧ Linked hash F' ∧
      ((F.table.Mem p ∧ ∃ f, F.heap p = some f ∧ f.fullPath = some n ∧
          F' = F.set p (some { f with referenceCount := f.referenceCount + 1 })) ∨
        ((∀ q, F.table.Mem q → F.name q ≠ some n) ∧ p = F.fresh ∧ F'.fresh = F.fresh + 1 ∧
          F'.freshDestination = F.freshDestination ∧
          F'.heap = Function.update F.heap p (some ⟨some n, 1, false, none⟩) ∧
          ∀ q, F'.table.Mem q ↔ F.table.Mem q ∨ q = p)) := by
  rcases h.get_cases n with ⟨p, hp, hn, hget⟩ | ⟨hno, hget⟩
  · obtain ⟨f, hf, hname⟩ := live_of_name hn
    have hadd :
      F.addReference p = F.set p (some { f with referenceCount := f.referenceCount + 1 }) :=
      Files.modify_of_heap hf _
    refine ⟨p, F.addReference p, ?_, ?_, Or.inl ⟨hp, f, hf, hname, hadd⟩⟩
    · rw [Files.getOrCreate, hget]
      rfl
    · rw [hadd]
      exact h.congr rfl le_rfl fun q _ => Files.name_set_same hf rfl
  · let F₁ := (F.allocate n).2
    have hold : ∀ q, F.table.Mem q → q ≠ F.fresh := by
      rintro q hq rfl
      exact absurd (h.name_of_mem hq).1 (lt_irrefl _)
    have hnames : ∀ q, F.table.Mem q → F₁.name q = F.name q := fun q hq =>
      (Files.name_update rfl).trans (if_neg (hold q hq))
    have h₁ : Linked hash F₁ := h.congr rfl (Nat.le_succ _) hnames
    have hname : F₁.name F.fresh = some n := (Files.name_update rfl).trans (if_pos rfl)
    obtain ⟨T', hput, hrep, hmem, -⟩ := h₁.put_new hname (Nat.lt_succ_self _)
      (fun hp => hold _ hp rfl)
    have hnew : F₁.heap F.fresh = some ⟨some n, 0, false, none⟩ := Function.update_self _ _ _
    refine ⟨F.fresh, ({ F₁ with table := T' } : Files).addReference F.fresh, ?_, ?_,
      Or.inr ⟨hno, rfl, rfl, rfl, ?_, hmem⟩⟩
    · rw [Files.getOrCreate, hget]
      simp only [ok_bind]
      rw [show F.allocate n = (F.fresh, F₁) from rfl]
      simp only [hput, ok_bind]
      rfl
    · rw [Files.addReference, Files.modify_of_heap (F := { F₁ with table := T' }) hnew]
      exact hrep.congr rfl le_rfl fun q _ => Files.name_set_same hnew rfl
    · rw [Files.addReference, Files.modify_of_heap (F := { F₁ with table := T' }) hnew]
      exact Function.update_idem _ _ _

/-- In a sound table the file that `get_or_create` finds is the one with the name. -/
theorem Rep.getOrCreate (h : Rep hash F) (n : Path) :
    ∃ p F', F.getOrCreate hash n = .ok (p, F') ∧ Rep hash F' ∧
      ((F.table.Mem p ∧ ∃ f, F.heap p = some f ∧ f.fullPath = some n ∧
          F' = F.set p (some { f with referenceCount := f.referenceCount + 1 })) ∨
        ((∀ q, F.table.Mem q → F.name q ≠ some n) ∧ p = F.fresh ∧ F'.fresh = F.fresh + 1 ∧
          F'.freshDestination = F.freshDestination ∧
          F'.heap = Function.update F.heap p (some ⟨some n, 1, false, none⟩) ∧
          ∀ q, F'.table.Mem q ↔ F.table.Mem q ∨ q = p)) := by
  obtain ⟨p, F', hrun, hlinked, hcases⟩ := h.toLinked.getOrCreate n
  refine ⟨p, F', hrun, ?_, hcases⟩
  obtain ⟨-, f, hf, -, rfl⟩ | ⟨hno, -, -, -, hheap, hmem⟩ := hcases
  · have hsame : ∀ q, (F.set p (some { f with referenceCount := f.referenceCount + 1 })).name q =
        F.name q := fun q => Files.name_set_same hf rfl
    exact h.of_linked hlinked fun q m hq hqm => ⟨hq, (hsame q).symm.trans hqm⟩
  · have hname : ∀ q, F'.name q = if q = p then some n else F.name q :=
      fun q => Files.name_update hheap
    have hold : ∀ q m, F'.table.Mem q → q ≠ p → F'.name q = some m →
        F.table.Mem q ∧ F.name q = some m := by
      intro q m hq hqp hqm
      rw [hname, if_neg hqp] at hqm
      exact ⟨((hmem q).mp hq).resolve_right hqp, hqm⟩
    refine ⟨hlinked, fun q r m hq hr hqm hrm => ?_⟩
    by_cases hqp : q = p
    · by_cases hrp : r = p
      · rw [hqp, hrp]
      · rw [hqp, hname, if_pos rfl] at hqm
        cases hqm
        obtain ⟨hr, hrm⟩ := hold r n hr hrp hrm
        exact absurd hrm (hno r hr)
    · by_cases hrp : r = p
      · rw [hrp, hname, if_pos rfl] at hrm
        cases hrm
        obtain ⟨hq, hqm⟩ := hold q n hq hqp hqm
        exact absurd hqm (hno q hq)
      · obtain ⟨hq, hqm⟩ := hold q m hq hqp hqm
        obtain ⟨hr, hrm⟩ := hold r m hr hrp hrm
        exact h.inj q r m hq hr hqm hrm

/-- In a sound table `try_to_remove` of a referenced file of the table succeeds, and the
last reference takes the file, and no other, out of the table. -/
theorem Rep.tryToRemove (h : Rep hash F) (hp : F.table.Mem p) (hf : F.heap p = some f)
    (hpos : 0 < f.referenceCount) :
    ∃ F', F.tryToRemove hash p = .ok F' ∧ Rep hash F' ∧ F'.fresh = F.fresh ∧
      F'.freshDestination = F.freshDestination ∧
      ((1 < f.referenceCount ∧
          F' = F.set p (some { f with referenceCount := f.referenceCount - 1 })) ∨
        (f.referenceCount = 1 ∧ F'.heap = Function.update F.heap p none ∧
          ∀ q, F'.table.Mem q ↔ F.table.Mem q ∧ q ≠ p)) := by
  let F₁ := F.set p (some { f with referenceCount := f.referenceCount - 1 })
  have hremove : F.removeReference p = .ok F₁ := by
    rw [Files.removeReference, hf]
    simp only [demand_some, ok_bind, if_neg (Nat.pos_iff_ne_zero.mp hpos)]
    rw [Files.modify_of_heap hf]
    rfl
  have h₁ : Rep hash F₁ := h.congr rfl le_rfl fun q _ => Files.name_set_same hf rfl
  have hf₁ : F₁.heap p = some { f with referenceCount := f.referenceCount - 1 } :=
    Function.update_self _ _ _
  by_cases hone : f.referenceCount = 1
  · let g : SourceFile := { f with referenceCount := f.referenceCount - 1 }
    let F₂ := F₁.set p (some g.tryToRemoveDestination)
    have hdest : F₁.tryToRemoveDestination p = .ok F₂ := by
      rw [Files.tryToRemoveDestination, hf₁]
      simp only [demand_some, ok_bind]
      rw [Files.modify_of_heap hf₁]
      rfl
    have hsame : g.tryToRemoveDestination.fullPath = g.fullPath := by
      rw [SourceFile.tryToRemoveDestination]
      split_ifs <;> rfl
    have h₂ : Rep hash F₂ := h₁.congr rfl le_rfl fun q _ => Files.name_set_same hf₁ hsame
    obtain ⟨T', hrun, h₃, hmem⟩ := h₂.remove_mem hp
    refine ⟨({ F₂ with table := T' } : Files).delete p, ?_, ?_, rfl, rfl,
      Or.inr ⟨hone, ?_, hmem⟩⟩
    · rw [Files.tryToRemove, hremove]
      simp only [ok_bind, hf₁, demand_some, hone, hdest, hrun]
      rfl
    · refine h₃.congr rfl le_rfl fun q hq => ?_
      refine (Files.name_update (F := { F₂ with table := T' }) rfl).trans (if_neg ?_)
      exact ((hmem q).mp hq).2
    · simp only [Files.delete, Files.set_heap, F₂, F₁, Function.update_idem]
  · refine ⟨F₁, ?_, h₁, rfl, rfl, Or.inl ⟨by omega, rfl⟩⟩
    rw [Files.tryToRemove, hremove]
    simp only [ok_bind, hf₁, demand_some]
    rw [if_neg (by omega)]
    rfl

/-- `try_to_remove` of a file that is not in the table. When it is deleted, `remove` searches the
table for its name. -/
theorem Linked.tryToRemove_absent (h : Linked hash F) (hp : ¬ F.table.Mem p)
    (hf : F.heap p = some f)
    (hpos : 0 < f.referenceCount)
    (hlast : f.referenceCount = 1 → ∃ n, f.fullPath = some n ∧
      ∀ q, F.table.Mem q → F.name q ≠ some n) :
    ∃ F', F.tryToRemove hash p = .ok F' ∧ Linked hash F' ∧ F'.table = F.table := by
  let F₁ := F.set p (some { f with referenceCount := f.referenceCount - 1 })
  have hremove : F.removeReference p = .ok F₁ := by
    rw [Files.removeReference, hf]
    simp only [demand_some, ok_bind, if_neg (Nat.pos_iff_ne_zero.mp hpos)]
    rw [Files.modify_of_heap hf]
    rfl
  have hf₁ : F₁.heap p = some { f with referenceCount := f.referenceCount - 1 } :=
    Function.update_self _ _ _
  have hset : ∀ o, Linked hash (F.set p o) := fun o => h.congr rfl le_rfl fun q hq => by
    rw [Files.name_set, if_neg]
    rintro rfl
    exact hp hq
  by_cases hone : f.referenceCount = 1
  · obtain ⟨n, hn, hno⟩ := hlast hone
    let g : SourceFile := { f with referenceCount := f.referenceCount - 1 }
    let F₂ := F.set p (some g.tryToRemoveDestination)
    have hdest : F₁.tryToRemoveDestination p = .ok F₂ := by
      rw [Files.tryToRemoveDestination, hf₁]
      simp only [demand_some, ok_bind]
      rw [Files.modify_of_heap hf₁, Files.set_set]
      rfl
    have hname : F₂.name p = some n := by
      rw [Files.name_set, if_pos rfl, Option.bind_some, SourceFile.tryToRemoveDestination]
      split_ifs <;> exact hn
    have hrun : F₂.remove hash p = .ok F₂ := by
      refine (hset _).remove_none hname fun q hq => ?_
      rw [Files.name_set, if_neg]
      · exact hno q hq
      · rintro rfl
        exact hp hq
    refine ⟨F₂.delete p, ?_, ?_, rfl⟩
    · rw [Files.tryToRemove, hremove]
      simp only [ok_bind, hf₁, demand_some, hone, hdest, hrun]
      rfl
    · rw [Files.delete, Files.set_set]
      exact hset none
  · refine ⟨F₁, ?_, hset _, rfl⟩
    rw [Files.tryToRemove, hremove]
    simp only [ok_bind, hf₁, demand_some]
    rw [if_neg (by omega)]
    rfl

theorem Rep.tryToRemove_absent (h : Rep hash F) (hp : ¬ F.table.Mem p) (hf : F.heap p = some f)
    (hpos : 0 < f.referenceCount)
    (hlast : f.referenceCount = 1 → ∃ n, f.fullPath = some n ∧
      ∀ q, F.table.Mem q → F.name q ≠ some n) :
    ∃ F', F.tryToRemove hash p = .ok F' ∧ Rep hash F' ∧ F'.table = F.table := by
  obtain ⟨F', hrun, hlinked, htable⟩ := h.toLinked.tryToRemove_absent hp hf hpos hlast
  refine ⟨F', hrun, h.of_linked hlinked fun q n hq hqn => ?_, htable⟩
  rw [htable] at hq
  have hqp : q ≠ p := by
    rintro rfl
    exact hp hq
  have hheap : F'.heap q = F.heap q := by
    obtain ⟨-, -, g, -, -, ⟨-, rfl⟩ | ⟨-, hheap⟩⟩ := Files.tryToRemove_heap hrun
    · exact Function.update_of_ne hqp _ _
    · rw [hheap, Function.update_of_ne hqp]
  exact ⟨hq, by rwa [Files.name, hheap] at hqn⟩

/-- Taking the file that `get` finds out of the table, and giving it another name, or none. -/
theorem Linked.remove_modify (h : Linked hash F) (hn : F.name p = some n)
    (hget : F.get hash n = .ok (some p)) (g : SourceFile) :
    ∃ T', F.remove hash p = .ok { F with table := T' } ∧
      Linked hash (({ F with table := T' } : Files).set p (some g)) ∧
      ∀ q, T'.Mem q ↔ F.table.Mem q ∧ q ≠ p := by
  obtain ⟨T', hrun, hlinked, hmem⟩ := h.remove_found hn hget
  refine ⟨T', hrun, hlinked.congr rfl le_rfl fun q hq => ?_, hmem⟩
  rw [Files.name_set, if_neg ((hmem q).mp hq).2]

theorem Rep.remove_modify (h : Rep hash F) (hp : F.table.Mem p) (g : SourceFile) :
    ∃ T', F.remove hash p = .ok { F with table := T' } ∧
      Rep hash (({ F with table := T' } : Files).set p (some g)) ∧
      ∀ q, T'.Mem q ↔ F.table.Mem q ∧ q ≠ p := by
  obtain ⟨-, n, hn⟩ := h.name_of_mem hp
  obtain ⟨T', hrun, hlinked, hmem⟩ := h.toLinked.remove_modify hn (h.get_some hp hn) g
  refine ⟨T', hrun, h.of_linked hlinked fun q m hq hqm => ?_, hmem⟩
  obtain ⟨hq, hqp⟩ := (hmem q).mp hq
  rw [Files.name_set, if_neg hqp] at hqm
  exact ⟨hq, hqm⟩

/-- A `rename` in a sound table to a name that no other file of it has. -/
theorem Rep.rename (h : Rep hash F) (hp : F.table.Mem p) (hf : F.heap p = some f) {m : Path}
    (dest : Path) {o : RenameOutcome} (hreal : o.realpath = some m) (hren : o.renamed = true)
    (hdest : f.destinationFile.isSome) (hno : ∀ q, F.table.Mem q → F.name q = some m → q = p) :
    ∃ F', F.rename hash p dest o = .ok (true, F') ∧ Rep hash F' ∧
      ∀ q, F'.table.Mem q ↔ F.table.Mem q := by
  obtain ⟨d, hd⟩ := Option.isSome_iff_exists.mp hdest
  let g : SourceFile :=
    { f with fullPath := some m, destinationFile := some { d with path := dest } }
  obtain ⟨T', hrun, hrep, hmem⟩ := h.remove_modify hp g
  let F₂ := ({ F with table := T' } : Files).set p (some g)
  have hname : F₂.name p = some m := by
    rw [Files.name_set, if_pos rfl]
    rfl
  have hnot : ¬ F₂.table.Mem p := fun hmp => ((hmem p).mp hmp).2 rfl
  have hfree : ∀ q, F₂.table.Mem q → F₂.name q ≠ some m := by
    intro q hq hqm
    obtain ⟨hq, hqp⟩ := (hmem q).mp hq
    rw [Files.name_set, if_neg hqp] at hqm
    exact hqp (hno q hq hqm)
  obtain ⟨T'', hput, hrep', hmem', -⟩ :=
    hrep.put_new hname (h.name_of_mem hp).1 hnot hfree
  refine ⟨{ F₂ with table := T'' }, ?_, hrep', fun q => ?_⟩
  · rw [Files.rename, hrun]
    simp only [ok_bind, hreal, reduceCtorEq, if_false]
    rw [Files.modify_of_heap (F := { F with table := T' }) hf]
    simp only [Files.set_heap, Function.update_self, demand_some, ok_bind, hd, if_pos hren]
    rw [Files.modify_of_heap (Function.update_self _ _ _), Files.set_set]
    rw [hput]
    rfl
  · rw [show ({ F₂ with table := T'' } : Files).table.Mem q ↔ F₂.table.Mem q ∨ q = p from hmem' q]
    rw [show F₂.table.Mem q ↔ F.table.Mem q ∧ q ≠ p from hmem q]
    constructor
    · rintro (hq | rfl)
      · exact hq.1
      · exact hp
    · intro hq
      by_cases hqp : q = p
      · exact Or.inr hqp
      · exact Or.inl ⟨hq, hqp⟩

/-- `rename` uses the destination without a check. -/
theorem Linked.rename_null (h : Linked hash F) (hn : F.name p = some n)
    (hget : F.get hash n = .ok (some p)) (hf : F.heap p = some f) {m dest : Path}
    {o : RenameOutcome} (hreal : o.realpath = some m) (hdest : f.destinationFile = none) :
    F.rename hash p dest o = .error .pointer := by
  obtain ⟨T', hrun, -⟩ := h.remove_found hn hget
  rw [Files.rename, hrun, ok_bind]
  dsimp only
  rw [Files.modify_of_heap (F := { F with table := T' }) hf, if_neg (by rw [hreal]; simp)]
  simp only [Files.set_heap, Function.update_self, demand_some, ok_bind, hdest]
  rfl

theorem Rep.rename_null (h : Rep hash F) (hp : F.table.Mem p) (hf : F.heap p = some f)
    {m dest : Path} {o : RenameOutcome} (hreal : o.realpath = some m)
    (hdest : f.destinationFile = none) : F.rename hash p dest o = .error .pointer := by
  obtain ⟨-, n, hn⟩ := h.name_of_mem hp
  exact h.toLinked.rename_null hn (h.get_some hp hn) hf hreal hdest

/-- A `rename` that fails leaves the target out of the table. -/
theorem Linked.rename_fails (h : Linked hash F) (hn : F.name p = some n)
    (hget : F.get hash n = .ok (some p)) (hf : F.heap p = some f) (dest : Path) {o : RenameOutcome}
    (hfail : o.realpath = none ∨ o.renamed = false)
    (hdest : o.realpath.isSome → f.destinationFile.isSome) :
    ∃ F', F.rename hash p dest o = .ok (false, F') ∧ Linked hash F' ∧
      (∀ q, F'.table.Mem q ↔ F.table.Mem q ∧ q ≠ p) ∧
      F'.heap = Function.update F.heap p (some (f.renamed dest o)) := by
  obtain ⟨T', hrun, hrep, hmem⟩ := h.remove_modify hn hget (f.renamed dest o)
  let F₁ : Files := { F with table := T' }
  have hres : F.rename hash p dest o = .ok (false, F₁.set p (some (f.renamed dest o))) := by
    rw [Files.rename, hrun]
    simp only [ok_bind]
    rw [Files.modify_of_heap (F := { F with table := T' }) hf]
    cases hreal : o.realpath with
    | none =>
      rw [if_pos rfl]
      simp [SourceFile.renamed, hreal, pure, Except.pure, F₁]
    | some m =>
      obtain ⟨d, hd⟩ := Option.isSome_iff_exists.mp (hdest (by rw [hreal]; rfl))
      have hren : o.renamed = false := by
        rcases hfail with hnone | hren
        · rw [hnone] at hreal
          cases hreal
        · exact hren
      simp only [reduceCtorEq, if_false, Files.set_heap, Function.update_self, demand_some,
        ok_bind, hd, hren, Bool.false_eq_true]
      rw [Files.modify_of_heap (Function.update_self _ _ _), Files.set_set]
      cases heno : o.enoent <;>
        simp [SourceFile.renamed, hreal, hren, heno, hd, pure, Except.pure, F₁]
  exact ⟨_, hres, hrep, hmem, rfl⟩

theorem Rep.rename_fails (h : Rep hash F) (hp : F.table.Mem p) (hf : F.heap p = some f)
    (dest : Path) {o : RenameOutcome} (hfail : o.realpath = none ∨ o.renamed = false)
    (hdest : o.realpath.isSome → f.destinationFile.isSome) :
    ∃ F', F.rename hash p dest o = .ok (false, F') ∧ Rep hash F' ∧
      (∀ q, F'.table.Mem q ↔ F.table.Mem q ∧ q ≠ p) ∧
      F'.heap = Function.update F.heap p (some (f.renamed dest o)) := by
  obtain ⟨-, n, hn⟩ := h.name_of_mem hp
  obtain ⟨F', hrun, hlinked, hmem, hheap⟩ :=
    h.toLinked.rename_fails hn (h.get_some hp hn) hf dest hfail hdest
  refine ⟨F', hrun, h.of_linked hlinked fun q m hq hqm => ?_, hmem, hheap⟩
  obtain ⟨hq, hqp⟩ := (hmem q).mp hq
  rw [Files.name_update hheap, if_neg hqp] at hqm
  exact ⟨hq, hqm⟩

end TokuBackup.Table
