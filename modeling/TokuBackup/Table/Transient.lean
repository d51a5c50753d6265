import TokuBackup.Table.Operations

/-!
# A target that only lives for one rename

When the table has no file with the old name, `rename_locked` makes one, renames it and
deletes it again. The new name may then be taken: the target is put at the head of the
chain, in front of the file that has its name, and `remove` takes it from there.
-/

namespace TokuBackup.Table

open Kernel Lib

variable {hash : Path → Nat} {F F' F₂ : Files} {T : FileHashTable} {p q : Ptr} {f : SourceFile}
  {n m : Path}

/-- The link of a file that no chain reaches does not matter. -/
theorem Rep.update_next (h : Rep hash F) (hp : ¬ F.table.Mem p) (o : Option Ptr) :
    Rep hash { F with table := { F.table with next := Function.update F.table.next p o } } ∧
      ∀ q, FileHashTable.Mem { F.table with next := Function.update F.table.next p o } q ↔
        F.table.Mem q := by
  have hchain : ∀ i < F.table.size, ∀ l, IsChain F.table.next (F.table.array i) l →
      IsChain (Function.update F.table.next p o) (F.table.array i) l := by
    intro i hi l hl
    apply hl.update
    intro hpl
    exact hp ⟨i, hi, hl.reaches_iff.mpr hpl⟩
  have hreach : ∀ i < F.table.size, ∀ q,
      Reaches (Function.update F.table.next p o) (F.table.array i) q ↔
        Reaches F.table.next (F.table.array i) q := by
    intro i hi q
    obtain ⟨l, hl⟩ := h.chain i hi
    rw [(hchain i hi l hl).reaches_iff, hl.reaches_iff]
  have hmem : ∀ q, FileHashTable.Mem
      { F.table with next := Function.update F.table.next p o } q ↔ F.table.Mem q := by
    intro q
    constructor
    · rintro ⟨i, hi, hq⟩
      exact ⟨i, hi, (hreach i hi q).mp hq⟩
    · rintro ⟨i, hi, hq⟩
      exact ⟨i, hi, (hreach i hi q).mpr hq⟩
  refine ⟨⟨⟨⟨h.size_pos, fun i hi => ?_, fun i hi q hq => ?_⟩, ?_⟩, fun q r k hq hr => ?_⟩, hmem⟩
  · obtain ⟨l, hl⟩ := h.chain i hi
    exact ⟨l, hchain i hi l hl⟩
  · exact h.place i hi q ((hreach i hi q).mp hq)
  · exact h.counted.congr hmem
  · exact h.inj q r k ((hmem q).mp hq) ((hmem r).mp hr)

/-- `put` of a file that is not in the table, when there is room for one more. -/
theorem Rep.put_link (h : Rep hash F) (hn : F.name p = some n) (hp : ¬ F.table.Mem p)
    (hroom : F.table.count + 1 ≤ F.table.size) :
    F.put hash p = .ok { F with table :=
      { F.table.link p (hash n % F.table.size) with count := F.table.count + 1 } } := by
  have hscan : F.scan (fun current => (F.heap current).map fun _ => decide (current = p))
      (hash n % F.table.size) = .ok none := by
    refine h.toPlaced.scan_none (h.hash_lt n) fun q hq => ?_
    obtain ⟨-, k, hk, -⟩ := h.place _ (h.hash_lt n) q hq
    obtain ⟨f, hf, -⟩ := live_of_name hk
    have hqp : q ≠ p := by
      rintro rfl
      exact hp ⟨_, h.hash_lt n, hq⟩
    rw [hf, Option.map_some, decide_eq_false hqp]
  have hsmall : ¬ (F.table.link p (hash n % F.table.size)).size <
      (F.table.link p (hash n % F.table.size)).count + 1 := by
    show ¬ F.table.size < F.table.count + 1
    omega
  rw [Files.put, hn, demand_some, ok_bind, Files.insert, hscan]
  show Files.maybeResize hash _ = _
  rw [Files.maybeResize, if_neg hsmall]
  rfl

/-- `remove` of the head of its chain. -/
theorem remove_head (hn : F.name p = some n)
    (hhead : F.table.array (hash n % F.table.size) = some p) (hcount : F.table.count ≠ 0) :
    F.remove hash p = .ok { F with table :=
      { F.table with
        count := F.table.count - 1
        array := Function.update F.table.array (hash n % F.table.size) (F.table.next p) } } := by
  have hscan : F.scan (F.named n) (hash n % F.table.size) = .ok (some (none, p)) := by
    have htest : F.named n p = some true := by
      rw [Files.named, hn, Option.map_some, decide_eq_true rfl]
    rw [Files.scan, hhead, Lib.scan, htest]
    rfl
  rw [Files.remove, hn, demand_some, ok_bind]
  simp only [hscan, ok_bind, if_neg hcount]
  rfl

/-- A new file leaves the table with room: `put` has looked after it. -/
theorem Rep.getOrCreate_room (h : Rep hash F) (hget : F.get hash n = .ok none)
    (hrun : F.getOrCreate hash n = .ok (p, F')) : F'.table.count ≤ F'.table.size := by
  rw [Files.getOrCreate, hget, ok_bind] at hrun
  dsimp only at hrun
  obtain ⟨F₁, hput, hrun⟩ := bind_eq_ok.mp hrun
  cases hrun
  show F₁.table.count ≤ F₁.table.size
  have hfresh : ∀ q, F.table.Mem q → q ≠ F.fresh := by
    rintro q hq rfl
    exact absurd (h.name_of_mem hq).1 (lt_irrefl _)
  have hnames : ∀ q, F.table.Mem q → (F.allocate n).2.name q = F.name q := fun q hq =>
    (Files.name_update rfl).trans (if_neg (hfresh q hq))
  have hrep : Rep hash (F.allocate n).2 := h.congr rfl (Nat.le_succ _) hnames
  have hfree : ∀ q, F.table.Mem q → F.name q ≠ some n := by
    intro q hq hqn
    rw [h.get_some hq hqn] at hget
    cases hget
  obtain ⟨T', hput', -, -, hroom⟩ := hrep.put_new (p := F.fresh) (n := n)
    ((Files.name_update rfl).trans (if_pos rfl)) (Nat.lt_succ_self _)
    (fun hp => hfresh _ hp rfl) (fun q hq => by rw [hnames q hq]; exact hfree q hq)
  rw [show F.allocate n = (F.fresh, (F.allocate n).2) from rfl] at hput
  rw [hput'] at hput
  cases hput
  exact hroom

theorem tryToCreateDestinationFile_table {path : Path} {created ok : Bool}
    (h : F.tryToCreateDestinationFile p path created = .ok (ok, F')) : F'.table = F.table := by
  obtain ⟨f, -, h⟩ := bind_eq_ok.mp h
  split_ifs at h
  · cases h
    rfl
  · cases h
    rfl
  · cases h
    rfl
  · cases h
    rfl

theorem remove_size (h : F.remove hash p = .ok F') : F'.table.size = F.table.size := by
  obtain ⟨name, -, h⟩ := bind_eq_ok.mp h
  obtain ⟨found, -, h⟩ := bind_eq_ok.mp h
  cases found with
  | none =>
    cases h
    rfl
  | some found =>
    obtain ⟨previous, current⟩ := found
    dsimp only at h
    split at h
    · cases h
    · cases previous with
      | none =>
        cases h
        rfl
      | some previous =>
        cases h
        rfl

/-- A file with a destination and one reference that leaves a table with room, is put back
under any name and is removed: only it is gone. -/
theorem Rep.rename_transient (h : Rep hash F) (hp : F.table.Mem p) (hf : F.heap p = some f)
    (hroom : F.table.count ≤ F.table.size) (hone : f.referenceCount = 1)
    (hdest : f.destinationFile.isSome) (dest : Path) {o : RenameOutcome}
    (hreal : o.realpath = some m) (hren : o.renamed = true) :
    ∃ F₁ F', F.rename hash p dest o = .ok (true, F₁) ∧ F₁.tryToRemove hash p = .ok F' ∧
      Rep hash F' ∧ F'.heap = Function.update F.heap p none ∧ F'.fresh = F.fresh ∧
      ∀ q, F'.table.Mem q ↔ F.table.Mem q ∧ q ≠ p := by
  obtain ⟨d, hd⟩ := Option.isSome_iff_exists.mp hdest
  let g : SourceFile :=
    { f with fullPath := some m, destinationFile := some { d with path := dest } }
  obtain ⟨T', hrun, hrep, hmem⟩ := h.remove_modify hp g
  let F₁ : Files := ({ F with table := T' } : Files).set p (some g)
  have hsize : T'.size = F.table.size := remove_size hrun
  have hcount : T'.count = F.table.count - 1 := hrep.counted.eq (h.counted.remove hp hmem)
  have hpos := h.counted.pos hp
  have hnot : ¬ F₁.table.Mem p := fun hp => ((hmem p).mp hp).2 rfl
  have hname : F₁.name p = some m := by
    rw [Files.name_set, if_pos rfl]
    rfl
  have hput := hrep.put_link hname hnot (by
    show T'.count + 1 ≤ T'.size
    omega)
  let T₂ : FileHashTable := { T'.link p (hash m % T'.size) with count := T'.count + 1 }
  let F₂ : Files := { F₁ with table := T₂ }
  have hrename : F.rename hash p dest o = .ok (true, F₂) := by
    rw [Files.rename, hrun]
    simp only [ok_bind, hreal, reduceCtorEq, if_false]
    rw [Files.modify_of_heap (F := { F with table := T' }) hf]
    simp only [Files.set_heap, Function.update_self, demand_some, ok_bind, hd, if_pos hren]
    rw [Files.modify_of_heap (Function.update_self _ _ _), Files.set_set]
    rw [hput]
    rfl
  -- the last reference goes
  let g₁ : SourceFile := { g with referenceCount := 0 }
  let F₃ : Files := F₂.set p (some g₁)
  have hg : F₂.heap p = some g := Function.update_self _ _ _
  have hunref : F₂.removeReference p = .ok F₃ := by
    rw [Files.removeReference, hg]
    simp only [demand_some, ok_bind]
    rw [if_neg (by show f.referenceCount ≠ 0; omega), Files.modify_of_heap hg]
    show Except.ok (F₂.set p (some { g with referenceCount := f.referenceCount - 1 })) = _
    rw [hone]
  let F₄ : Files := F₃.set p (some g₁.tryToRemoveDestination)
  have hg₁ : F₃.heap p = some g₁ := Function.update_self _ _ _
  have hunhook : F₃.tryToRemoveDestination p = .ok F₄ := by
    rw [Files.tryToRemoveDestination, hg₁]
    simp only [demand_some, ok_bind]
    rw [Files.modify_of_heap hg₁]
    rfl
  have hname₄ : F₄.name p = some m := by
    rw [Files.name_set, if_pos rfl, Option.bind_some, SourceFile.tryToRemoveDestination]
    split_ifs <;> rfl
  have hremove := @remove_head hash _ _ _ hname₄ (Function.update_self _ _ _)
    (Nat.succ_ne_zero T'.count)
  obtain ⟨hrep', hmem'⟩ := hrep.update_next hnot (T'.array (hash m % T'.size))
  let T₃ : FileHashTable :=
    { T' with next := Function.update T'.next p (T'.array (hash m % T'.size)) }
  have htable : ({ T₂ with
      count := T₂.count - 1
      array := Function.update T₂.array (hash m % T₂.size) (T₂.next p) } : FileHashTable) = T₃ := by
    have harray : Function.update T₂.array (hash m % T₂.size) (T₂.next p) = T'.array := by
      show Function.update (Function.update T'.array (hash m % T'.size) (some p))
        (hash m % T'.size) (Function.update T'.next p (T'.array (hash m % T'.size)) p) = T'.array
      rw [Function.update_idem, Function.update_self, Function.update_eq_self]
    rw [harray]
    rfl
  have hremove : F₄.remove hash p = .ok { F₄ with table := T₃ } := by
    rw [← htable]
    exact hremove
  refine ⟨F₂, ({ F₄ with table := T₃ } : Files).delete p, hrename, ?_, ?_, ?_, rfl, fun q => ?_⟩
  · rw [Files.tryToRemove, hunref]
    simp only [ok_bind, hg₁, demand_some, g₁, if_true, hunhook, hremove]
    rfl
  · refine hrep'.congr rfl le_rfl fun q hq => ?_
    have hqp : q ≠ p := ((hmem q).mp ((hmem' q).mp hq)).2
    refine (Files.name_update (F := F₁) (p := p) (o := none) ?_).trans (if_neg hqp)
    simp only [Files.delete, Files.set_heap, F₄, F₃, F₂, Function.update_idem]
  · simp only [Files.delete, Files.set_heap, F₄, F₃, F₂, F₁, Function.update_idem]
  · exact (hmem' q).trans (hmem q)

end TokuBackup.Table
