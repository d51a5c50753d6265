import Mathlib.Data.Finset.Card
import Mathlib.Data.Finset.Preimage

/-!
# Counting holders

`Counted P n`: exactly `n` things satisfy `P`. A counter that is moved by several parties
(a reference count, the number of instances of a lock) is exact when it counts its
holders; a step that makes one party a holder, or stops it from being one, moves the
counter by one.
-/

namespace TokuBackup.Lib

variable {ι : Type} {P Q : ι → Prop} {n : Nat}

/-- Exactly `n` things satisfy `P`. -/
def Counted (P : ι → Prop) (n : Nat) : Prop :=
  ∃ H : Finset ι, (∀ i, i ∈ H ↔ P i) ∧ H.card = n

namespace Counted

theorem congr (h : Counted P n) (hPQ : ∀ i, Q i ↔ P i) : Counted Q n := by
  obtain ⟨H, hH, hn⟩ := h
  exact ⟨H, fun i => (hH i).trans (hPQ i).symm, hn⟩

theorem none (h : ∀ i, ¬ P i) : Counted P 0 :=
  ⟨∅, fun i => by simp [h i], rfl⟩

theorem eq (h : Counted P n) {m : Nat} (h' : Counted P m) : n = m := by
  obtain ⟨H, hH, rfl⟩ := h
  obtain ⟨K, hK, rfl⟩ := h'
  congr 1
  ext i
  rw [hH, hK]

/-- One more holder. -/
theorem add (h : Counted P n) {i : ι} (hi : ¬ P i) (hQ : ∀ j, Q j ↔ P j ∨ j = i) :
    Counted Q (n + 1) := by
  classical
  obtain ⟨H, hH, rfl⟩ := h
  refine ⟨insert i H, fun j => ?_, Finset.card_insert_of_notMem (by rw [hH]; exact hi)⟩
  rw [Finset.mem_insert, hH, hQ, or_comm]

/-- Several new holders. -/
theorem addAll {l : List ι} (h : Counted P n) (hnodup : l.Nodup) (hnew : ∀ i ∈ l, ¬ P i)
    (hQ : ∀ j, Q j ↔ P j ∨ j ∈ l) : Counted Q (n + l.length) := by
  induction l generalizing P n with
  | nil => exact h.congr fun j => by simp [hQ]
  | cons i l ih =>
    rw [List.nodup_cons] at hnodup
    have hone : Counted (fun j => P j ∨ j = i) (n + 1) :=
      h.add (hnew i List.mem_cons_self) fun _ => Iff.rfl
    have hall := ih hone hnodup.2 (fun j hj => by
      rintro (hj' | rfl)
      · exact hnew j (List.mem_cons_of_mem i hj) hj'
      · exact hnodup.1 hj) fun j => by rw [hQ, List.mem_cons, or_assoc]
    rw [List.length_cons, Nat.add_comm l.length 1, ← Nat.add_assoc]
    exact hall

/-- One holder less. -/
theorem remove (h : Counted P n) {i : ι} (hi : P i) (hQ : ∀ j, Q j ↔ P j ∧ j ≠ i) :
    Counted Q (n - 1) := by
  classical
  obtain ⟨H, hH, rfl⟩ := h
  refine ⟨H.erase i, fun j => ?_, Finset.card_erase_of_mem ((hH i).mpr hi)⟩
  rw [Finset.mem_erase, hH, hQ, and_comm]

/-- The holders under other names. -/
theorem comap {κ : Type} (h : Counted P n) {f : κ → ι} (hf : Function.Injective f)
    (hP : ∀ i, P i → ∃ k, f k = i) : Counted (fun k => P (f k)) n := by
  classical
  obtain ⟨H, hH, rfl⟩ := h
  refine ⟨H.preimage f hf.injOn, fun k => by rw [Finset.mem_preimage, hH], ?_⟩
  rw [← Finset.card_image_of_injective _ hf]
  congr 1
  ext i
  simp only [Finset.mem_image, Finset.mem_preimage, hH]
  constructor
  · rintro ⟨k, hk, rfl⟩
    exact hk
  · intro hi
    obtain ⟨k, rfl⟩ := hP i hi
    exact ⟨k, hi, rfl⟩

theorem pos (h : Counted P n) {i : ι} (hi : P i) : 0 < n := by
  obtain ⟨H, hH, rfl⟩ := h
  exact Finset.card_pos.mpr ⟨i, (hH i).mpr hi⟩

theorem exists_of_pos (h : Counted P n) (hn : 0 < n) : ∃ i, P i := by
  obtain ⟨H, hH, rfl⟩ := h
  obtain ⟨i, hi⟩ := Finset.card_pos.mp hn
  exact ⟨i, (hH i).mp hi⟩

/-- Two different holders make the counter at least two. -/
theorem two_le (h : Counted P n) {i j : ι} (hi : P i) (hj : P j) (hij : i ≠ j) : 2 ≤ n := by
  obtain ⟨H, hH, rfl⟩ := h
  exact Finset.one_lt_card.mpr ⟨i, (hH i).mpr hi, j, (hH j).mpr hj, hij⟩

/-- A counter at one or below has at most one holder. -/
theorem unique (h : Counted P n) (hn : n ≤ 1) {i j : ι} (hi : P i) (hj : P j) : i = j := by
  by_contra hij
  have := h.two_le hi hj hij
  omega

end Counted

end TokuBackup.Lib
