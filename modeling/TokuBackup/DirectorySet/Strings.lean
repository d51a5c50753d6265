import Mathlib.Logic.Function.Basic
import Mathlib.Data.List.Count
import Mathlib.Data.List.Nodup
import Mathlib.Data.List.Range
import TokuBackup.Kernel.Path

/-!
# The strings of a directory set

A `directory_set` is made of the caller's names, `update_to_full_path` puts what `realpath`
allocates in their place, and the destructor frees the strings when `m_real_path_successful`
says that they are the set's own. Each call of `realpath` may fail. The loop goes on after a
failure and returns the result of the last pair, so `allOrNothing_iff` says that resolving
the set is all or nothing only when no call fails.
-/

namespace TokuBackup.Resolution

open Kernel

inductive Side where
  | source
  | destination
  deriving DecidableEq

def Side.pick {α : Type} (source destination : α) : Side → α
  | .source => source
  | .destination => destination

/-- A string that `m_sources` or `m_destinations` may point to. -/
inductive Str where
  | caller (side : Side) (i : Nat)
  /-- What `realpath` has allocated for the name `i`. -/
  | resolved (side : Side) (i : Nat)
  deriving DecidableEq

/-- The caller's name that the string is. -/
def Str.callers : Str → Option (Side × Nat)
  | .caller side i => some (side, i)
  | .resolved _ _ => none

/-- A `directory_set`, with the strings that `realpath` has allocated for it and the ones that
have been freed. -/
structure Strings where
  count : Nat
  entry : Side → Nat → Str × Path
  realPathSuccessful : Bool
  allocated : List Str
  freed : List Str

/-- What `realpath` answers for each name; `none` is a failure. -/
abbrev Answers := Side → Nat → Option Path

/-! ## The functions of the set -/

/-- The constructor. -/
def construct (count : Nat) (names : Side → Nat → Path) : Strings :=
  ⟨count, fun side i => (.caller side i, names side i), false, [], []⟩

namespace Strings

variable (s : Strings)

/-- The strings that entry `i` points to. -/
def pair (i : Nat) : List Str := [(s.entry .source i).1, (s.entry .destination i).1]

/-- The strings that the first `pairs` entries point to. -/
def pointedTo (pairs : Nat) : List Str := (List.range pairs).flatMap s.pair

/-- The destructor. -/
def destroy : Strings :=
  if s.realPathSuccessful then { s with freed := s.freed ++ s.pointedTo s.count } else s

/-- `update_to_real_path_on_index`. -/
def updateToRealPathOnIndex (answer : Answers) (i : Nat) : Strings × Int :=
  match answer .source i, answer .destination i with
  | none, _ => (s, 2)
  | some _, none =>
    ({ s with allocated := s.allocated ++ [.resolved .source i]
              freed := s.freed ++ [.resolved .source i] }, 2)
  | some src, some dest =>
    ({ s with
        entry := fun side =>
          Function.update (s.entry side) i (.resolved side i, side.pick src dest)
        allocated := s.allocated ++ [.resolved .source i, .resolved .destination i] }, 0)

/-- `handle_realpath_results`; the pairs are freed from the last to the first. -/
def handleRealpathResults (r : Int) (allocatedPairs : Nat) : Strings :=
  if r ≠ 0 then
    { s with
      freed := s.freed ++ (List.range allocatedPairs).reverse.flatMap s.pair
      realPathSuccessful := false }
  else { s with realPathSuccessful := true }

/-- The loop of `update_to_full_path` over the first `n` pairs; the result is the last one. -/
def updateLoop (answer : Answers) : Nat → Strings × Int
  | 0 => (s, 0)
  | n + 1 => (updateLoop answer n).1.updateToRealPathOnIndex answer n

def updateToFullPath (answer : Answers) : Strings × Int :=
  let (s', r) := s.updateLoop answer s.count
  (s'.handleRealpathResults r s.count, r)

end Strings

/-- The set after the constructor, `update_to_full_path` and the destructor. -/
def life (count : Nat) (names : Side → Nat → Path) (answer : Answers) : Strings :=
  ((construct count names).updateToFullPath answer).1.destroy

/-! ## What resolving is meant to do -/

/-- `realpath` succeeds on both names of each of the first `n` pairs. -/
def AllResolve (answer : Answers) (n : Nat) : Prop := ∀ i < n, ∀ side, (answer side i).isSome

/-- Resolving the set is all or nothing, and its strings are freed by their owners. -/
structure AllOrNothing (count : Nat) (names : Side → Nat → Path) (answer : Answers) : Prop where
  result : ((construct count names).updateToFullPath answer).2 = 0 ↔ AllResolve answer count
  owned : AllResolve answer count → ∀ side, ∀ i < count, ∃ path, answer side i = some path ∧
    ((construct count names).updateToFullPath answer).1.entry side i = (.resolved side i, path)
  freedOnce : ∀ str ∈ (life count names answer).allocated,
    (life count names answer).freed.count str = 1
  callers : ∀ side i, Str.caller side i ∉ (life count names answer).freed

/-! ## The loop -/

section

variable {answer : Answers} {s : Strings} {n i k : Nat}

theorem updateToRealPathOnIndex_eq_zero :
    (s.updateToRealPathOnIndex answer i).2 = 0 ↔ ∀ side, (answer side i).isSome := by
  rw [Strings.updateToRealPathOnIndex]
  split
  · rename_i h
    refine iff_of_false (fun hr : (2 : Int) = 0 => absurd hr (by decide)) fun hall => ?_
    have hsource := hall .source
    rw [h] at hsource
    cases hsource
  · rename_i h
    refine iff_of_false (fun hr : (2 : Int) = 0 => absurd hr (by decide)) fun hall => ?_
    have hdest := hall .destination
    rw [h] at hdest
    cases hdest
  · rename_i hsource hdest
    refine iff_of_true rfl fun side => ?_
    cases side with
    | source => rw [hsource]; rfl
    | destination => rw [hdest]; rfl

theorem updateToRealPathOnIndex_entry (side : Side) (h : k ≠ i) :
    (s.updateToRealPathOnIndex answer i).1.entry side k = s.entry side k := by
  rw [Strings.updateToRealPathOnIndex]
  split
  · rfl
  · rfl
  · exact Function.update_of_ne h _ _

/-- A pair that is not resolved keeps its names. -/
theorem updateToRealPathOnIndex_failed (side : Side)
    (h : (s.updateToRealPathOnIndex answer i).2 ≠ 0) :
    (s.updateToRealPathOnIndex answer i).1.entry side i = s.entry side i := by
  rw [Strings.updateToRealPathOnIndex] at h ⊢
  split
  · rfl
  · rfl
  · rename_i hsource hdest
    rw [hsource, hdest] at h
    exact absurd rfl h

/-- The loop does not touch the pairs that it has not come to. -/
theorem updateLoop_entry (side : Side) (h : n ≤ k) :
    (s.updateLoop answer n).1.entry side k = s.entry side k := by
  induction n with
  | zero => rfl
  | succ n ih =>
    rw [Strings.updateLoop, updateToRealPathOnIndex_entry side (by omega)]
    exact ih (by omega)

theorem updateLoop_count : (s.updateLoop answer n).1.count = s.count := by
  induction n with
  | zero => rfl
  | succ n ih =>
    rw [Strings.updateLoop, Strings.updateToRealPathOnIndex]
    split
    · exact ih
    · exact ih
    · exact ih

/-- What the loop has done to a set whose first `n` pairs have been resolved. -/
structure Resolved (answer : Answers) (s : Strings) (n : Nat) : Prop where
  entry : ∀ side, ∀ i < n, ∃ path, answer side i = some path ∧
    s.entry side i = (.resolved side i, path)
  freed : s.freed = []
  allocated : ∀ str ∈ s.allocated, ∃ side, ∃ i < n, str = .resolved side i

theorem Resolved.step (hs : Resolved answer s n) (h : ∀ side, (answer side n).isSome) :
    Resolved answer (s.updateToRealPathOnIndex answer n).1 (n + 1) := by
  obtain ⟨src, hsource⟩ := Option.isSome_iff_exists.mp (h .source)
  obtain ⟨dest, hdest⟩ := Option.isSome_iff_exists.mp (h .destination)
  rw [Strings.updateToRealPathOnIndex, hsource, hdest]
  refine ⟨fun side i hi => ?_, hs.freed, fun str hstr => ?_⟩
  · by_cases hin : i = n
    · rw [hin]
      refine ⟨side.pick src dest, ?_, Function.update_self _ _ _⟩
      cases side with
      | source => exact hsource
      | destination => exact hdest
    · obtain ⟨path, hpath, hentry⟩ := hs.entry side i (by omega)
      exact ⟨path, hpath, (Function.update_of_ne hin _ _).trans hentry⟩
  · rcases List.mem_append.mp hstr with hstr | hstr
    · obtain ⟨side, i, hi, hstr⟩ := hs.allocated str hstr
      exact ⟨side, i, by omega, hstr⟩
    · simp only [List.mem_cons, List.not_mem_nil, or_false] at hstr
      rcases hstr with rfl | rfl
      · exact ⟨.source, n, Nat.lt_succ_self n, rfl⟩
      · exact ⟨.destination, n, Nat.lt_succ_self n, rfl⟩

theorem resolved_updateLoop (hs : Resolved answer s 0) (h : AllResolve answer n) :
    Resolved answer (s.updateLoop answer n).1 n := by
  induction n with
  | zero => exact hs
  | succ n ih =>
    have ih := ih fun i hi => h i (Nat.lt_succ_of_lt hi)
    exact ih.step (h n (Nat.lt_succ_self n))

theorem resolved_construct (count : Nat) (names : Side → Nat → Path) :
    Resolved answer (construct count names) 0 :=
  ⟨fun _ _ hi => absurd hi (Nat.not_lt_zero _), rfl, fun _ hstr => absurd hstr List.not_mem_nil⟩

theorem updateToFullPath_fst : (s.updateToFullPath answer).1 =
    (s.updateLoop answer s.count).1.handleRealpathResults (s.updateLoop answer s.count).2 s.count :=
  rfl

theorem updateToFullPath_snd :
    (s.updateToFullPath answer).2 = (s.updateLoop answer s.count).2 := rfl

theorem updateLoop_result (h : AllResolve answer n) : (s.updateLoop answer n).2 = 0 := by
  cases n with
  | zero => rfl
  | succ n => exact updateToRealPathOnIndex_eq_zero.mpr (h n (Nat.lt_succ_self n))

/-! ## The caller's strings -/

/-- The loop frees no string of the caller. -/
theorem updateLoop_freed (h : s.freed.filterMap Str.callers = []) :
    (s.updateLoop answer n).1.freed.filterMap Str.callers = [] := by
  induction n with
  | zero => exact h
  | succ n ih =>
    rw [Strings.updateLoop, Strings.updateToRealPathOnIndex]
    split
    · exact ih
    · rw [List.filterMap_append, ih]
      rfl
    · exact ih

/-- An entry points to the caller's name until it is resolved. -/
theorem updateLoop_owner (names : Side → Nat → Path) (side : Side) (hi : i < n) :
    (((∀ side, (answer side i).isSome) ∧
      (((construct k names).updateLoop answer n).1.entry side i).1 = .resolved side i) ∨
    ((¬ ∀ side, (answer side i).isSome) ∧
      (((construct k names).updateLoop answer n).1.entry side i).1 = .caller side i)) := by
  induction n with
  | zero => exact absurd hi (Nat.not_lt_zero i)
  | succ n ih =>
    rw [Strings.updateLoop]
    by_cases hin : i = n
    · subst hin
      by_cases hresolves : ∀ side, (answer side i).isSome
      · refine Or.inl ⟨hresolves, ?_⟩
        obtain ⟨src, hsource⟩ := Option.isSome_iff_exists.mp (hresolves .source)
        obtain ⟨dest, hdest⟩ := Option.isSome_iff_exists.mp (hresolves .destination)
        rw [Strings.updateToRealPathOnIndex, hsource, hdest]
        dsimp only
        rw [Function.update_self]
      · refine Or.inr ⟨hresolves, ?_⟩
        rw [updateToRealPathOnIndex_failed side (mt updateToRealPathOnIndex_eq_zero.mp hresolves),
          updateLoop_entry side (Nat.le_refl i)]
        rfl
    · rw [updateToRealPathOnIndex_entry side hin]
      exact ih (by omega)

/-- The names of the caller that `handle_realpath_results` frees. -/
def unresolved (answer : Answers) (n : Nat) : List (Side × Nat) :=
  (List.range n).reverse.flatMap fun i =>
    if (answer .source i).isSome ∧ (answer .destination i).isSome then []
    else [(.source, i), (.destination, i)]

theorem forall_side {P : Side → Prop} : (∀ side, P side) ↔ P .source ∧ P .destination := by
  constructor
  · exact fun h => ⟨h .source, h .destination⟩
  · rintro ⟨hsource, hdest⟩ side
    cases side with
    | source => exact hsource
    | destination => exact hdest

theorem mem_unresolved {side : Side} : (side, i) ∈ unresolved answer n ↔
    i < n ∧ ¬ ∀ side, (answer side i).isSome := by
  rw [unresolved, List.mem_flatMap]
  constructor
  · rintro ⟨j, hj, hmem⟩
    rw [List.mem_reverse, List.mem_range] at hj
    split at hmem
    · cases hmem
    · rename_i hnot
      have hij : i = j := by
        simp only [List.mem_cons, Prod.mk.injEq, List.not_mem_nil, or_false] at hmem
        exact hmem.elim And.right And.right
      rw [hij, forall_side]
      exact ⟨hj, hnot⟩
  · rintro ⟨hi, hnot⟩
    rw [forall_side] at hnot
    refine ⟨i, by rwa [List.mem_reverse, List.mem_range], ?_⟩
    rw [if_neg hnot]
    cases side <;> simp

theorem nodup_unresolved : (unresolved answer n).Nodup := by
  rw [unresolved, List.nodup_flatMap]
  refine ⟨fun i _ => ?_, ?_⟩
  · split <;> simp
  · rw [List.pairwise_reverse]
    refine List.pairwise_lt_range.imp fun {i j} hij => ?_
    rintro ⟨side, k⟩ hj hi
    dsimp only at hi hj
    split at hi
    · cases hi
    · split at hj
      · cases hj
      · simp only [List.mem_cons, Prod.mk.injEq, List.not_mem_nil, or_false] at hi hj
        omega

/-- A failure of the last pair frees the caller's names in every pair that is not resolved. -/
theorem updateToFullPath_freed (count : Nat) (names : Side → Nat → Path) :
    ((construct count names).updateToFullPath answer).1.freed.filterMap Str.callers =
      if ((construct count names).updateToFullPath answer).2 ≠ 0 then unresolved answer count
      else [] := by
  have hloop :
    ((construct count names).updateLoop answer count).1.freed.filterMap Str.callers = [] :=
    updateLoop_freed rfl
  rw [updateToFullPath_fst, updateToFullPath_snd, Strings.handleRealpathResults]
  by_cases hr : ((construct count names).updateLoop answer (construct count names).count).2 ≠ 0
  · rw [if_pos hr, if_pos hr]
    change List.filterMap _ (((construct count names).updateLoop answer count).1.freed ++
      (List.range count).reverse.flatMap
        ((construct count names).updateLoop answer count).1.pair) = _
    rw [List.filterMap_append, hloop, List.nil_append, List.filterMap_flatMap]
    refine List.flatMap_congr fun i hi => ?_
    have hi : i < count := List.mem_range.mp (List.mem_reverse.mp hi)
    rw [Strings.pair]
    by_cases hresolves : ∀ side, (answer side i).isSome
    · have howner : ∀ side, (((construct count names).updateLoop answer count).1.entry side i).1 =
          .resolved side i := fun side =>
        ((updateLoop_owner names side hi).resolve_right fun h => h.1 hresolves).2
      rw [howner, howner, if_pos (forall_side.mp hresolves)]
      rfl
    · have howner : ∀ side, (((construct count names).updateLoop answer count).1.entry side i).1 =
          .caller side i := fun side =>
        ((updateLoop_owner names side hi).resolve_left fun h => hresolves h.1).2
      rw [howner, howner, if_neg (mt forall_side.mpr hresolves)]
      rfl
  · rw [if_neg hr, if_neg hr]
    exact hloop

/-! ## The strings of a resolved set -/

theorem pointedTo_succ (n : Nat) :
    s.pointedTo (n + 1) =
      s.pointedTo n ++ [(s.entry .source n).1, (s.entry .destination n).1] := by
  rw [Strings.pointedTo, List.range_succ, List.flatMap_append, Strings.pointedTo]
  simp only [List.flatMap_cons, List.flatMap_nil, List.append_nil, Strings.pair]

/-- Each resolved name is pointed to once. -/
theorem count_pointedTo (h : ∀ side, ∀ i < n, (s.entry side i).1 = .resolved side i)
    (side : Side) (i : Nat) :
    (s.pointedTo n).count (.resolved side i) = if i < n then 1 else 0 := by
  induction n with
  | zero => rfl
  | succ n ih =>
    have ih := ih fun side i hi => h side i (Nat.lt_succ_of_lt hi)
    have hpair : [(s.entry .source n).1, (s.entry .destination n).1].count (.resolved side i) =
        if i = n then 1 else 0 := by
      rw [h .source n (Nat.lt_succ_self n), h .destination n (Nat.lt_succ_self n)]
      cases side with
      | source => by_cases hi : i = n <;> simp [hi, eq_comm]
      | destination => by_cases hi : i = n <;> simp [hi, eq_comm]
    rw [pointedTo_succ, List.count_append, ih, hpair]
    split <;> split <;> split <;> omega

theorem caller_not_mem_pointedTo (h : ∀ side, ∀ i < n, (s.entry side i).1 = .resolved side i)
    (side : Side) (i : Nat) : Str.caller side i ∉ s.pointedTo n := by
  intro hmem
  obtain ⟨k, hk, hmem⟩ := List.mem_flatMap.mp hmem
  have hk := List.mem_range.mp hk
  rw [Strings.pair, h .source k hk, h .destination k hk] at hmem
  simp at hmem

end

/-! ## The main result -/

/-- Resolving a set of directories is all or nothing, with each string freed by its owner,
exactly when `realpath` succeeds on every name. -/
theorem allOrNothing_iff (count : Nat) (names : Side → Nat → Path) (answer : Answers) :
    AllOrNothing count names answer ↔ AllResolve answer count := by
  constructor
  · intro h
    cases count with
    | zero => exact fun i hi => absurd hi (Nat.not_lt_zero i)
    | succ n =>
      by_contra hfails
      -- the result is the one of the last pair
      by_cases hlast : (((construct (n + 1) names).updateLoop answer n).1.updateToRealPathOnIndex
          answer n).2 = 0
      · exact hfails (h.result.mp hlast)
      · refine h.callers .source n ?_
        have hentry : (((construct (n + 1) names).updateLoop answer (n + 1)).1.entry .source n).1 =
            .caller .source n := by
          rw [Strings.updateLoop, updateToRealPathOnIndex_failed .source hlast,
            updateLoop_entry .source (Nat.le_refl n)]
          rfl
        have hloop : ((construct (n + 1) names).updateLoop answer (construct (n + 1) names).count).2
            ≠ 0 := hlast
        have hfreed : (life (n + 1) names answer).freed =
            ((construct (n + 1) names).updateLoop answer (n + 1)).1.freed ++
              (List.range (n + 1)).reverse.flatMap
                ((construct (n + 1) names).updateLoop answer (n + 1)).1.pair := by
          rw [life, updateToFullPath_fst, Strings.handleRealpathResults, if_pos hloop,
            Strings.destroy, if_neg Bool.false_ne_true]
          rfl
        rw [hfreed, List.range_succ, List.reverse_append, List.flatMap_append]
        simp [Strings.pair, hentry]
  · intro h
    have hresolved := resolved_updateLoop (resolved_construct count names) h
    have hzero : ((construct count names).updateLoop answer (construct count names).count).2 = 0 :=
      updateLoop_result h
    have hupdate : ((construct count names).updateToFullPath answer).1 =
        { ((construct count names).updateLoop answer count).1 with
          realPathSuccessful := true } := by
      rw [updateToFullPath_fst, Strings.handleRealpathResults, if_neg (fun hne => hne hzero)]
      rfl
    have hown : ∀ side, ∀ i < count, (((construct count names).updateLoop answer count).1.entry
        side i).1 = .resolved side i := by
      intro side i hi
      obtain ⟨path, -, hentry⟩ := hresolved.entry side i hi
      rw [hentry]
    have hlife : (life count names answer).freed =
        ((construct count names).updateLoop answer count).1.pointedTo count := by
      rw [life, hupdate, Strings.destroy, if_pos rfl]
      change ((construct count names).updateLoop answer count).1.freed ++
        ((construct count names).updateLoop answer count).1.pointedTo
          ((construct count names).updateLoop answer count).1.count = _
      rw [hresolved.freed, updateLoop_count, List.nil_append]
      rfl
    have hallocated : (life count names answer).allocated =
        ((construct count names).updateLoop answer count).1.allocated := by
      rw [life, hupdate, Strings.destroy, if_pos rfl]
    refine ⟨?_, fun _ => ?_, ?_, ?_⟩
    · rw [updateToFullPath_snd]
      exact iff_of_true hzero h
    · rw [hupdate]
      exact hresolved.entry
    · intro str hstr
      rw [hallocated] at hstr
      obtain ⟨side, i, hi, rfl⟩ := hresolved.allocated str hstr
      rw [hlife, count_pointedTo hown, if_pos hi]
    · intro side i
      rw [hlife]
      exact caller_not_mem_pointedTo hown side i

/-- `realpath` fails on the first of two sources. -/
def firstFails : Answers
  | .source, 0 => none
  | .source, _ => some "/s".toList
  | .destination, _ => some "/b".toList

/-- The failure of the first pair is lost. -/
theorem not_allOrNothing :
    ¬ ∀ (count : Nat) (names : Side → Nat → Path) (answer : Answers),
      AllOrNothing count names answer := by
  intro h
  have hall :=
    (h 2 (fun side i => side.pick (if i = 0 then "/gone".toList else "/s".toList) "/b".toList)
    firstFails).result.mp (by decide)
  exact absurd (hall 0 (by decide) .source) (by decide)

end TokuBackup.Resolution
