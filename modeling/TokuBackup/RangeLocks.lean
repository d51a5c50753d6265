import TokuBackup.Lib.Counted
import Mathlib.Data.List.Perm.Basic

/-!
# The byte-range locks of a source file

`source_file` keeps the locked ranges in a vector, `m_locked_ranges`; a range is the
half-open interval `[lo, hi)`. `lock_range` waits until no locked range intersects the
requested one and then appends it, `unlock_range` removes one instance of the range by
moving the last element into its place.

Offsets are `off_t` values that are not negative and their sums stay below `2 ^ 64`, so
they are natural numbers here.
-/

namespace TokuBackup

/-- `LLONG_MAX`, the largest `off_t`. -/
def llongMax : Nat := 2 ^ 63 - 1

/-- `struct range`. -/
structure Range where
  lo : Nat
  hi : Nat
  deriving DecidableEq, Repr

/-- `ranges_intersect`: do `[lo0, hi0)` and `[lo1, hi1)` share a position? -/
def rangesIntersect (lo0 hi0 lo1 hi1 : Nat) : Bool :=
  if lo0 ≥ hi0 then false
  else if lo1 ≥ hi1 then false
  else if hi0 ≤ lo1 then false
  else if hi1 ≤ lo0 then false
  else true

/-- `source_file::lock_range_would_block_unlocked`. -/
def lockRangeWouldBlockUnlocked (lockedRanges : List Range) (lo hi : Nat) : Bool :=
  lockedRanges.any fun r => rangesIntersect r.lo r.hi lo hi

/-- `source_file::lock_range`; `none` while the caller has to wait. -/
def lockRange (lockedRanges : List Range) (r : Range) : Option (List Range) :=
  if lockRangeWouldBlockUnlocked lockedRanges r.lo r.hi then none
  else some (lockedRanges ++ [r])

/-- `v[i] = v[size-1]; v.pop_back()`. -/
def swapRemove (lockedRanges : List Range) (i : Nat) : List Range :=
  (lockedRanges.set i (lockedRanges.getLastD ⟨0, 0⟩)).dropLast

/-- `source_file::unlock_range`; `none` stands for the branch that reports `EINVAL` as a
fatal error. -/
def unlockRange (lockedRanges : List Range) (r : Range) : Option (List Range) :=
  (lockedRanges.findIdx? (· = r)).map (swapRemove lockedRanges)

/-! ## Intersection -/

theorem rangesIntersect_iff {lo0 hi0 lo1 hi1 : Nat} :
    rangesIntersect lo0 hi0 lo1 hi1 = true ↔ ∃ i, (lo0 ≤ i ∧ i < hi0) ∧ lo1 ≤ i ∧ i < hi1 := by
  constructor
  · intro h
    refine ⟨max lo0 lo1, ?_⟩
    unfold rangesIntersect at h
    grind
  · rintro ⟨i, hi⟩
    unfold rangesIntersect
    grind

/-- Two ranges with no common position. -/
def Range.Disjoint (r q : Range) : Prop := rangesIntersect r.lo r.hi q.lo q.hi = false

theorem Range.disjoint_iff {r q : Range} :
    r.Disjoint q ↔ ∀ i, r.lo ≤ i → i < r.hi → q.lo ≤ i → i < q.hi → False := by
  rw [Range.Disjoint, Bool.eq_false_iff, ne_eq, rangesIntersect_iff]
  constructor
  · intro h i h1 h2 h3 h4
    exact h ⟨i, ⟨h1, h2⟩, h3, h4⟩
  · rintro h ⟨i, ⟨h1, h2⟩, h3, h4⟩
    exact h i h1 h2 h3 h4

theorem Range.Disjoint.symm {r q : Range} (h : r.Disjoint q) : q.Disjoint r := by
  rw [Range.disjoint_iff] at h ⊢
  intro i h1 h2 h3 h4
  exact h i h3 h4 h1 h2

/-! ## The vector of locked ranges -/

theorem lockRange_some {l l' : List Range} {r : Range} (h : lockRange l r = some l') :
    l' = l ++ [r] ∧ ∀ q ∈ l, q.Disjoint r := by
  unfold lockRange at h
  split at h
  · cases h
  · rename_i hno
    cases h
    refine ⟨rfl, fun q hq => ?_⟩
    simp only [lockRangeWouldBlockUnlocked, List.any_eq_true, not_exists, not_and,
      Bool.not_eq_true] at hno
    exact hno q hq

theorem swapRemove_perm {l : List Range} {i : Nat} (hi : i < l.length) :
    (swapRemove l i).Perm (l.eraseIdx i) := by
  have hne : l ≠ [] := by
    intro h
    simp [h] at hi
  obtain ⟨init, last, rfl⟩ : ∃ init last, l = init ++ [last] :=
    ⟨l.dropLast, l.getLast hne, (List.dropLast_append_getLast hne).symm⟩
  rw [swapRemove, List.getLastD_eq_getLast?, List.getLast?_concat, Option.getD_some]
  by_cases h : i < init.length
  · rw [List.set_append_left _ _ h, List.dropLast_concat, List.eraseIdx_append_of_lt_length h]
    exact (List.set_perm_cons_eraseIdx h last).trans
      (List.perm_append_singleton last (init.eraseIdx i)).symm
  · have h' : i = init.length := by
      rw [List.length_append, List.length_singleton] at hi
      omega
    subst h'
    rw [List.set_append_right _ _ (le_refl _), Nat.sub_self, List.set_cons_zero,
      List.dropLast_concat, List.eraseIdx_append_of_length_le (le_refl _), Nat.sub_self,
      List.eraseIdx_cons_zero, List.append_nil]

/-- `unlock_range` finds a range that is locked and removes one instance of it. -/
theorem unlockRange_of_mem {l : List Range} {r : Range} (h : r ∈ l) :
    ∃ l', unlockRange l r = some l' ∧ l'.Perm (l.erase r) := by
  have hidx : l.findIdx? (· = r) = some (l.idxOf r) := by
    rw [List.findIdx?_eq_some_iff_getElem]
    refine ⟨List.idxOf_lt_length_of_mem h, by simp, fun j hj => ?_⟩
    have := List.not_of_lt_findIdx hj
    simpa using this
  refine ⟨swapRemove l (l.idxOf r), by rw [unlockRange, hidx]; rfl, ?_⟩
  rw [List.erase_eq_eraseIdx_of_idxOf rfl]
  exact swapRemove_perm (List.idxOf_lt_length_of_mem h)

/-! ## Held ranges

The vector holds a range as many times as there are parties that hold it. -/

section

variable {ι : Type}

/-- The vector is exactly the ranges that the parties hold. -/
def Locked (lockedRanges : List Range) (held : ι → Option Range) : Prop :=
  ∀ r, Lib.Counted (fun p => held p = some r) (lockedRanges.count r)

theorem Locked.of_none {held : ι → Option Range} (h : ∀ p, held p = none) : Locked [] held :=
  fun r => Lib.Counted.none fun p hp => by rw [h p] at hp; cases hp

theorem Locked.mem {l : List Range} {held : ι → Option Range} (h : Locked l held) {p : ι}
    {r : Range} (hp : held p = some r) : r ∈ l :=
  List.count_pos_iff.mp ((h r).pos hp)

theorem Locked.congr {l : List Range} {held held' : ι → Option Range} (h : Locked l held)
    (he : ∀ p, held' p = held p) : Locked l held' :=
  fun r => (h r).congr fun p => by rw [he]

/-- A party that holds nothing takes a range. -/
theorem Locked.lock {l l' : List Range} {held held' : ι → Option Range} (h : Locked l held)
    {p : ι} {r : Range} (hp : held p = none) (hl : lockRange l r = some l')
    (hself : held' p = some r) (hother : ∀ q, q ≠ p → held' q = held q) :
    Locked l' held' := by
  classical
  obtain ⟨rfl, -⟩ := lockRange_some hl
  intro q
  by_cases hqr : q = r
  · subst hqr
    rw [List.count_append, List.count_singleton_self]
    refine (h q).add (i := p) (by simp [hp]) fun j => ?_
    by_cases hj : j = p
    · subst hj
      simp [hself]
    · simp [hother j hj, hj]
  · rw [List.count_append, List.count_singleton, if_neg (by simpa using fun h => hqr h.symm),
      Nat.add_zero]
    refine (h q).congr fun j => ?_
    by_cases hj : j = p
    · subst hj
      simp [hself, hp, Ne.symm hqr]
    · rw [hother j hj]

/-- A party gives back the range it holds. -/
theorem Locked.unlock {l : List Range} {held held' : ι → Option Range} (h : Locked l held)
    {p : ι} {r : Range} (hp : held p = some r) (hself : held' p = none)
    (hother : ∀ q, q ≠ p → held' q = held q) :
    ∃ l', unlockRange l r = some l' ∧ Locked l' held' := by
  classical
  obtain ⟨l', hl', hperm⟩ := unlockRange_of_mem (h.mem hp)
  refine ⟨l', hl', fun q => ?_⟩
  rw [hperm.count_eq, List.count_erase]
  by_cases hqr : r = q
  · subst hqr
    simp only [beq_self_eq_true, if_true]
    refine (h r).remove (i := p) hp fun j => ?_
    by_cases hj : j = p
    · subst hj
      simp [hself]
    · simp [hother j hj, hj]
  · rw [if_neg (by simpa using hqr), Nat.sub_zero]
    refine (h q).congr fun j => ?_
    by_cases hj : j = p
    · subst hj
      simp [hself, hp, hqr]
    · rw [hother j hj]

end

end TokuBackup
