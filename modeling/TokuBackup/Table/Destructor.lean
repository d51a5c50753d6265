import TokuBackup.Table.Refinement

/-!
# The destructor of the file table

The destructor takes every chain apart from its head on and deletes the files. It reads the
link of a file before it deletes it, and each file is in one chain only, so nothing that was
deleted is used or deleted again.
-/

namespace TokuBackup.Table

open Kernel Lib

/-- The inner loop: a file is deleted after its link has been read. -/
def Files.destroyChain (F : Files) (i : Nat) : Nat → Except Fault Files
  | 0 => .error .chain
  | fuel + 1 =>
    match F.table.array i with
    | none => .ok F
    | some head => do
      let _ ← demand (F.heap head) .pointer
      let T := { F.table with array := Function.update F.table.array i (F.table.next head) }
      let F := { F with table := T }
      (F.delete head).destroyChain i fuel

/-- The outer loop. -/
def Files.destroyChains (F : Files) : List Nat → Except Fault Files
  | [] => .ok F
  | i :: is => do
    let F ← F.destroyChain i (F.fresh + 1)
    F.destroyChains is

/-- The destructor. -/
def Files.destroy (F : Files) : Except Fault Files := F.destroyChains (List.range F.table.size)

variable {hash : Path → Nat} {F F₀ : Files} {i : Nat} {p : Ptr}

/-! ## The loops -/

/-- A chain that has been taken apart: its files are deleted, and nothing else changes. -/
structure Destroyed (F F' : Files) (i : Nat) (l : List Ptr) : Prop where
  deleted : ∀ p ∈ l, F'.heap p = none
  kept : ∀ p, p ∉ l → F'.heap p = F.heap p
  array : F'.table.array = Function.update F.table.array i none
  next : F'.table.next = F.table.next
  fresh : F'.fresh = F.fresh

theorem destroyChain_spec {l : List Ptr} {fuel : Nat}
    (hl : IsChain F.table.next (F.table.array i) l) (hlive : ∀ p ∈ l, F.heap p ≠ none)
    (hf : l.length < fuel) : ∃ F', F.destroyChain i fuel = .ok F' ∧ Destroyed F F' i l := by
  induction l generalizing F fuel with
  | nil =>
    cases fuel with
    | zero => cases hf
    | succ fuel =>
      have hnone : F.table.array i = none := hl
      refine ⟨F, by rw [Files.destroyChain, hnone], ?_, fun _ _ => rfl, ?_, rfl, rfl⟩
      · exact fun p hp => absurd hp List.not_mem_nil
      · rw [← hnone, Function.update_eq_self]
  | cons head l ih =>
    cases fuel with
    | zero => cases hf
    | succ fuel =>
      have hnodup := hl.nodup
      rw [List.nodup_cons] at hnodup
      obtain ⟨hhead, hl⟩ := hl
      obtain ⟨f, hlivehead⟩ := Option.ne_none_iff_exists'.mp (hlive head List.mem_cons_self)
      let T := { F.table with array := Function.update F.table.array i (F.table.next head) }
      let F₁ := Files.delete { F with table := T } head
      have hother : ∀ p, p ≠ head → F₁.heap p = F.heap p := fun p hp => Function.update_of_ne hp _ _
      have hl₁ : IsChain F₁.table.next (F₁.table.array i) l := by
        have harray : F₁.table.array i = F.table.next head := Function.update_self _ _ _
        rw [harray]
        exact hl
      have hlive₁ : ∀ p ∈ l, F₁.heap p ≠ none := by
        intro p hp
        rw [hother p fun h => hnodup.1 (h ▸ hp)]
        exact hlive p (List.mem_cons_of_mem head hp)
      obtain ⟨F', hrun, hF'⟩ := ih hl₁ hlive₁ (Nat.lt_of_succ_lt_succ hf)
      refine ⟨F', ?_, ?_, ?_, ?_, hF'.next, hF'.fresh⟩
      · rw [Files.destroyChain, hhead]
        simp only [hlivehead, demand_some, ok_bind]
        exact hrun
      · intro p hp
        rcases List.mem_cons.mp hp with rfl | hp
        · rw [hF'.kept p hnodup.1]
          exact Function.update_self _ _ _
        · exact hF'.deleted p hp
      · intro p hp
        rw [List.mem_cons, not_or] at hp
        rw [hF'.kept p hp.2, hother p hp.1]
      · rw [hF'.array]
        exact Function.update_idem _ _ _

/-- The chains that are left are as in the table of `F₀`, and so are their files. -/
structure Remaining (F₀ F : Files) (is : List Nat) : Prop where
  array : ∀ i ∈ is, F.table.array i = F₀.table.array i
  next : F.table.next = F₀.table.next
  heap : ∀ i ∈ is, ∀ p, Reaches F₀.table.next (F₀.table.array i) p → F.heap p = F₀.heap p
  fresh : F.fresh = F₀.fresh

/-- Taking the chains apart one after the other. -/
theorem Remaining.destroyChains {is : List Nat} (h₀ : Placed hash F₀ F₀.table)
    (his : ∀ i ∈ is, i < F₀.table.size) (hnodup : is.Nodup) (h : Remaining F₀ F is) :
    ∃ F', F.destroyChains is = .ok F' ∧ (∀ i ∈ is, F'.table.array i = none) ∧
      (∀ i, i ∉ is → F'.table.array i = F.table.array i) ∧
      (∀ i ∈ is, ∀ p, Reaches F₀.table.next (F₀.table.array i) p → F'.heap p = none) ∧
      ∀ p, (∀ i ∈ is, ¬ Reaches F₀.table.next (F₀.table.array i) p) → F'.heap p = F.heap p := by
  induction is generalizing F with
  | nil =>
    exact ⟨F, rfl, fun i hi => absurd hi List.not_mem_nil, fun _ _ => rfl,
      fun i hi => absurd hi List.not_mem_nil, fun _ _ => rfl⟩
  | cons i is ih =>
    rw [List.nodup_cons] at hnodup
    have hi := his i List.mem_cons_self
    obtain ⟨l, hl⟩ := h₀.chain i hi
    have hmeml : ∀ p, p ∈ l ↔ Reaches F₀.table.next (F₀.table.array i) p :=
      fun p => hl.reaches_iff.symm
    have hlF : IsChain F.table.next (F.table.array i) l := by
      rw [h.array i List.mem_cons_self, h.next]
      exact hl
    have hlive : ∀ p ∈ l, F.heap p ≠ none := by
      intro p hp
      rw [h.heap i List.mem_cons_self p ((hmeml p).mp hp)]
      obtain ⟨-, n, hn⟩ := h₀.name_of_mem ⟨i, hi, (hmeml p).mp hp⟩
      obtain ⟨f, hf, -⟩ := live_of_name hn
      rw [hf]
      exact Option.some_ne_none f
    have hlength := h₀.length_lt hi hl
    rw [← h.fresh] at hlength
    obtain ⟨F₁, hrun, hF₁⟩ := destroyChain_spec hlF hlive hlength
    -- a file is in one bucket, so the files of the other chains are still there
    have hremaining : Remaining F₀ F₁ is := by
      refine ⟨fun j hj => ?_, hF₁.next.trans h.next, fun j hj p hp => ?_, hF₁.fresh.trans h.fresh⟩
      · rw [hF₁.array, Function.update_of_ne (fun hji : j = i => hnodup.1 (hji ▸ hj))]
        exact h.array j (List.mem_cons_of_mem i hj)
      · have hpl : p ∉ l := by
          intro hpl
          have hij := h₀.bucket_unique hi (his j (List.mem_cons_of_mem i hj)) ((hmeml p).mp hpl) hp
          exact hnodup.1 (hij ▸ hj)
        rw [hF₁.kept p hpl]
        exact h.heap j (List.mem_cons_of_mem i hj) p hp
    obtain ⟨F', hrun', hempty, houtside, hdeleted, hkept⟩ :=
      ih (fun j hj => his j (List.mem_cons_of_mem i hj)) hnodup.2 hremaining
    refine ⟨F', ?_, fun j hj => ?_, fun j hj => ?_, fun j hj p hp => ?_, fun p hp => ?_⟩
    · rw [Files.destroyChains, hrun, ok_bind]
      exact hrun'
    · rcases List.mem_cons.mp hj with rfl | hj
      · rw [houtside j hnodup.1, hF₁.array]
        exact Function.update_self _ _ _
      · exact hempty j hj
    · rw [List.mem_cons, not_or] at hj
      rw [houtside j hj.2, hF₁.array]
      exact Function.update_of_ne hj.1 _ _
    · rcases List.mem_cons.mp hj with rfl | hj
      · by_cases hin : ∃ k ∈ is, Reaches F₀.table.next (F₀.table.array k) p
        · obtain ⟨k, hk, hin⟩ := hin
          exact hdeleted k hk p hin
        · rw [hkept p fun k hk hp' => hin ⟨k, hk, hp'⟩]
          exact hF₁.deleted p ((hmeml p).mpr hp)
      · exact hdeleted j hj p hp
    · rw [hkept p fun j hj => hp j (List.mem_cons_of_mem i hj)]
      exact hF₁.kept p fun hpl => hp i List.mem_cons_self ((hmeml p).mp hpl)

/-! ## The main result -/

/-- Whatever was done with the table, its destructor deletes the stored files without using a
file that is deleted, and leaves the other files alone. -/
theorem destructor_deletes (hash : Path → Nat) {os : List Operation}
    (hok : Allowed Store.apply Store.Allows Store.new os) :
    ∃ F F', perform (Files.apply hash) Files.new os =
        .ok ((answers Store.apply Store.new os).1, F) ∧ F.destroy = .ok F' ∧
      (∀ i < F.table.size, F'.table.array i = none) ∧
      (∀ n p, (answers Store.apply Store.new os).2.stored.lookup n = some p → F'.heap p = none) ∧
      ∀ p, (∀ n, (answers Store.apply Store.new os).2.stored.lookup n ≠ some p) →
        F'.heap p = F.heap p := by
  obtain ⟨F, hrun, hF⟩ := perform_of_simulation Represents.step represents_new hok
  have hplaced := (hF.rep : Rep hash F).toPlaced
  have hall : Remaining F F (List.range F.table.size) :=
    ⟨fun _ _ => rfl, rfl, fun _ _ _ _ => rfl, rfl⟩
  obtain ⟨F', hdestroy, hempty, -, hdeleted, hkept⟩ :=
    hall.destroyChains hplaced (fun i hi => List.mem_range.mp hi) List.nodup_range
  refine ⟨F, F', hrun, hdestroy, fun i hi => hempty i (List.mem_range.mpr hi), fun n p hl => ?_,
    fun p hp => hkept p fun i hi hreach => ?_⟩
  · obtain ⟨⟨i, hi, hreach⟩, -⟩ := (hF.stored n p).mp hl
    exact hdeleted i (List.mem_range.mpr hi) p hreach
  · obtain ⟨n, -, hl⟩ := hF.lookup_of_mem ⟨i, List.mem_range.mp hi, hreach⟩
    exact hp n hl

/-- Two files are stored in one chain, and one is not stored. -/
def loose : List Operation :=
  [.allocate ['a'], .put 0, .getOrCreate ['b'], .allocate ['c'], .get ['c']]

theorem destructor_deletes_loose :
    ∃ F F', perform (Files.apply fun _ => 0) Files.new loose =
        .ok ((answers Store.apply Store.new loose).1, F) ∧ F.destroy = .ok F' ∧
      (∀ i < F.table.size, F'.table.array i = none) ∧
      (∀ n p, (answers Store.apply Store.new loose).2.stored.lookup n = some p → F'.heap p = none) ∧
      ∀ p, (∀ n, (answers Store.apply Store.new loose).2.stored.lookup n ≠ some p) →
        F'.heap p = F.heap p := by
  have hok : Allowed Store.apply Store.Allows Store.new loose := by decide
  exact destructor_deletes (fun _ => 0) hok

end TokuBackup.Table
