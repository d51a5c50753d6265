import TokuBackup.DirectorySet.Strings

/-!
# Conflicting directories

`tokubackup_create_backup` checks the arrays for null pointers, compares the first source
with the first destination, and resolves the set of directories before it calls `do_backup`.
The other pairs are not compared with anything, since `verify_no_two_directories_are_the_same`
does nothing and is not called, and of the failures of `realpath` only the last pair's is
seen. When it is seen, the names of the pairs that are not resolved are freed, and the caller's
names need not have come from `malloc`. `rejects_iff` says which requests are treated as they
should be.
-/

namespace TokuBackup.Resolution

open Kernel

/-- The arguments of `tokubackup_create_backup`, with the answers of `realpath`. -/
structure Request where
  dirCount : Int
  /-- The arrays; their first elements are read even when `dirCount` is not positive. -/
  dirs : Side → Nat → Option Path
  /-- The answers for the first pair, before the set is made. -/
  check : Side → Option Path
  /-- The answers for the set. -/
  answer : Answers
  /-- The block of `malloc` that a name is; a literal or an array of the caller is none. -/
  block : Side → Nat → Option Nat

inductive Outcome where
  /-- With the call of the error callback; `update_to_full_path` makes none. -/
  | returns (r : Int) (report : Option (Int × String))
  /-- The arrays of the set cannot be allocated, and no exception may leave the function. -/
  | terminates
  /-- `free` gets what is no block of `malloc`, or is one no longer. -/
  | aborts
  | doBackup (dirs : List (Path × Path))
  deriving DecidableEq

namespace Request

variable (q : Request)

/-- The number of pairs that the loops go over. -/
def pairs : Nat := q.dirCount.toNat

/-- The text for the first null pointer. -/
def nullDirectory : Option String :=
  (List.range q.pairs).findSome? fun i =>
    if q.dirs .source i = none then some "One of the source directories is NULL"
    else if q.dirs .destination i = none then some "One of the destination directories is NULL"
    else none

/-- `realpath` in the first check; it fails for a null pointer. -/
def resolveFirst (side : Side) : Option Path := (q.dirs side 0).bind fun _ => q.check side

/-- The set that is made of the arrays. -/
def strings : Strings := construct q.pairs fun side i => (q.dirs side i).getD []

/-- The blocks of the caller's names among the strings. -/
def blocks (freed : List Str) : List (Option Nat) :=
  (freed.filterMap Str.callers).map fun n => q.block n.1 n.2

/-- `free` can be called for each of the strings in turn. -/
def Freeable (freed : List Str) : Prop := none ∉ q.blocks freed ∧ (q.blocks freed).Nodup

instance (freed : List Str) : Decidable (q.Freeable freed) :=
  inferInstanceAs (Decidable (none ∉ q.blocks freed ∧ (q.blocks freed).Nodup))

def setDirs (s : Strings) : List (Path × Path) :=
  (List.range s.count).map fun i => ((s.entry .source i).2, (s.entry .destination i).2)

end Request

def tokubackupCreateBackup (q : Request) : Outcome :=
  match q.nullDirectory with
  | some text => .returns 22 (some (22, text))
  | none =>
    match q.resolveFirst .source with
    | none => .returns 2 (some (2, "Could not resolve source directory path."))
    | some fullSource =>
      match q.resolveFirst .destination with
      | none => .returns 2 (some (2, "Could not resolve destination directory path."))
      | some fullDestination =>
        if fullSource = fullDestination then
          .returns 22 (some (22, "Source and destination directories are the same."))
        else if q.dirCount < 0 then .terminates
        else
          let (s, r) := q.strings.updateToFullPath q.answer
          if ¬ q.Freeable s.freed then .aborts
          else if r ≠ 0 then .returns 22 none
          else .doBackup (Request.setDirs s)

/-! ## What the request has to be -/

namespace Request

variable (q : Request)

/-- No name is a null pointer. -/
def NonNull : Prop := ∀ side, ∀ i < q.pairs, q.dirs side i ≠ none

/-- No two directories are the same, after `realpath`. -/
structure Distinct : Prop where
  pair : ∀ i < q.pairs, q.answer .source i ≠ q.answer .destination i
  side : ∀ side, ∀ i < q.pairs, ∀ j < i, q.answer side i ≠ q.answer side j

/-- The directories can be backed up. -/
structure Admissible : Prop where
  nonNull : q.NonNull
  resolved : AllResolve q.answer q.pairs
  distinct : q.Distinct

/-- Only admissible directories get to `do_backup`; otherwise the call returns an error. -/
def Rejects : Prop :=
  (∃ dirs, tokubackupCreateBackup q = .doBackup dirs ∧ q.Admissible) ∨
    ∃ r report, tokubackupCreateBackup q = .returns r report ∧ r ≠ 0

/-- The request passes the checks in front of the set. -/
structure PassesChecks : Prop where
  nonNull : q.NonNull
  first : ∃ source destination, q.resolveFirst .source = some source ∧
    q.resolveFirst .destination = some destination ∧ source ≠ destination

/-- `realpath` succeeds on the last pair, if there is one. -/
def LastResolves : Prop := ∀ n, q.pairs = n + 1 → ∀ side, (q.answer side n).isSome

/-- The name is one of a pair on which `realpath` fails. -/
def Unresolved (n : Side × Nat) : Prop := n.2 < q.pairs ∧ ¬ ∀ side, (q.answer side n.2).isSome

/-- The names of the pairs on which `realpath` fails are blocks of `malloc`, no two the same. -/
structure UnresolvedAllocated : Prop where
  block : ∀ n, q.Unresolved n → q.block n.1 n.2 ≠ none
  apart : ∀ n m, q.Unresolved n → q.Unresolved m → q.block n.1 n.2 = q.block m.1 m.2 → n = m

end Request

/-! ## What gets through -/

section

variable {q : Request}

theorem nullDirectory_eq_none : q.nullDirectory = none ↔ q.NonNull := by
  rw [Request.nullDirectory, List.findSome?_eq_none_iff]
  constructor
  · intro h side i hi hnull
    have h := h i (List.mem_range.mpr hi)
    cases side with
    | source => rw [if_pos hnull] at h; cases h
    | destination =>
      by_cases hsource : q.dirs .source i = none
      · rw [if_pos hsource] at h
        cases h
      · rw [if_neg hsource, if_pos hnull] at h
        cases h
  · intro h i hi
    have hi := List.mem_range.mp hi
    rw [if_neg (h .source i hi), if_neg (h .destination i hi)]

/-- The checks return an error unless they are passed. -/
theorem returns_of_not_passesChecks (h : ¬ q.PassesChecks) :
    ∃ r report, tokubackupCreateBackup q = .returns r report ∧ r ≠ 0 := by
  rw [tokubackupCreateBackup]
  split
  · exact ⟨22, _, rfl, by decide⟩
  · rename_i hnull
    split
    · exact ⟨2, _, rfl, by decide⟩
    · rename_i source hsource
      split
      · exact ⟨2, _, rfl, by decide⟩
      · rename_i destination hdest
        by_cases hsame : source = destination
        · rw [if_pos hsame]
          exact ⟨22, _, rfl, by decide⟩
        · exact absurd
            ⟨nullDirectory_eq_none.mp hnull, source, destination, hsource, hdest, hsame⟩ h

/-- Behind the checks only the sign of the count and the result for the set matter. -/
theorem create_of_passesChecks (h : q.PassesChecks) :
    tokubackupCreateBackup q =
      if q.dirCount < 0 then .terminates
      else if ¬ q.Freeable (q.strings.updateToFullPath q.answer).1.freed then .aborts
      else if (q.strings.updateToFullPath q.answer).2 ≠ 0 then .returns 22 none
      else .doBackup (Request.setDirs (q.strings.updateToFullPath q.answer).1) := by
  obtain ⟨hnull, source, destination, hsource, hdest, hsame⟩ := h
  rw [tokubackupCreateBackup, nullDirectory_eq_none.mpr hnull, hsource, hdest]
  exact if_neg hsame

/-- The set is resolved when its last pair is. -/
theorem updateToFullPath_eq_zero :
    (q.strings.updateToFullPath q.answer).2 = 0 ↔ q.LastResolves := by
  rw [updateToFullPath_snd, Request.LastResolves]
  change (q.strings.updateLoop q.answer q.pairs).2 = 0 ↔ _
  cases hn : q.pairs with
  | zero => exact iff_of_true rfl fun n h => absurd h (Nat.succ_ne_zero n).symm
  | succ n =>
    rw [Strings.updateLoop, updateToRealPathOnIndex_eq_zero]
    constructor
    · intro h m hm
      cases hm
      exact h
    · intro h
      exact h n rfl

/-- Nothing of the caller's is freed when the last pair is resolved. -/
theorem freeable_of_lastResolves (h : q.LastResolves) :
    q.Freeable (q.strings.updateToFullPath q.answer).1.freed := by
  have hnames : (q.strings.updateToFullPath q.answer).1.freed.filterMap Str.callers = [] := by
    rw [Request.strings, updateToFullPath_freed]
    exact if_neg (not_not_intro (updateToFullPath_eq_zero.mpr h))
  rw [Request.Freeable, Request.blocks, hnames]
  exact ⟨List.not_mem_nil, List.nodup_nil⟩

/-- When it is not, the names of the pairs that are not resolved are. -/
theorem freeable_iff_of_not_lastResolves (h : ¬ q.LastResolves) :
    q.Freeable (q.strings.updateToFullPath q.answer).1.freed ↔ q.UnresolvedAllocated := by
  have hnames : (q.strings.updateToFullPath q.answer).1.freed.filterMap Str.callers =
      unresolved q.answer q.pairs := by
    rw [Request.strings, updateToFullPath_freed]
    exact if_pos (mt updateToFullPath_eq_zero.mp h)
  have hmem : ∀ n, n ∈ unresolved q.answer q.pairs ↔ q.Unresolved n := fun n => mem_unresolved
  rw [Request.Freeable, Request.blocks, hnames, List.nodup_map_iff_inj_on nodup_unresolved]
  constructor
  · rintro ⟨hnone, hinj⟩
    refine ⟨fun n hn hblock => ?_, fun n m hn hm => ?_⟩
    · exact hnone (List.mem_map.mpr ⟨n, (hmem n).mpr hn, hblock⟩)
    · exact hinj n ((hmem n).mpr hn) m ((hmem m).mpr hm)
  · rintro ⟨hblock, happart⟩
    refine ⟨fun hnone => ?_, fun n hn m hm => happart n m ((hmem n).mp hn) ((hmem m).mp hm)⟩
    obtain ⟨n, hn, hnone⟩ := List.mem_map.mp hnone
    exact hblock n ((hmem n).mp hn) hnone

/-- A request is rejected as it should be exactly when it does not get through the checks, or
has a count that is not negative, and directories that can all be backed up, or a last pair that
is not resolved, while the names of the pairs that are not resolved can be freed. -/
theorem rejects_iff (q : Request) :
    q.Rejects ↔ (q.PassesChecks → 0 ≤ q.dirCount ∧
      (q.LastResolves → q.Admissible) ∧ (¬ q.LastResolves → q.UnresolvedAllocated)) := by
  by_cases hpass : q.PassesChecks
  · rw [Request.Rejects, create_of_passesChecks hpass]
    by_cases hneg : q.dirCount < 0
    · rw [if_pos hneg]
      refine iff_of_false ?_ fun h => ?_
      · rintro (⟨dirs, h, -⟩ | ⟨r, report, h, -⟩)
        · cases h
        · cases h
      · exact absurd (h hpass).1 (by omega)
    · rw [if_neg hneg]
      have hcount : 0 ≤ q.dirCount := by omega
      by_cases hlast : q.LastResolves
      · rw [if_neg (not_not_intro (freeable_of_lastResolves hlast)),
          if_neg (not_not_intro (updateToFullPath_eq_zero.mpr hlast))]
        constructor
        · rintro (⟨dirs, -, hadm⟩ | ⟨r, report, h, -⟩)
          · exact fun _ => ⟨hcount, fun _ => hadm, fun hnot => absurd hlast hnot⟩
          · cases h
        · intro h
          exact Or.inl ⟨_, rfl, (h hpass).2.1 hlast⟩
      · by_cases hfree : q.UnresolvedAllocated
        · rw [if_neg (not_not_intro ((freeable_iff_of_not_lastResolves hlast).mpr hfree)),
            if_pos (mt updateToFullPath_eq_zero.mp hlast)]
          refine iff_of_true (Or.inr ⟨22, none, rfl, by decide⟩) ?_
          exact fun _ => ⟨hcount, fun h => absurd h hlast, fun _ => hfree⟩
        · rw [if_pos (mt (freeable_iff_of_not_lastResolves hlast).mp hfree)]
          refine iff_of_false ?_ fun h => hfree ((h hpass).2.2 hlast)
          rintro (⟨dirs, h, -⟩ | ⟨r, report, h, -⟩)
          · cases h
          · cases h
  · exact iff_of_true (Or.inr (returns_of_not_passesChecks hpass)) fun h => absurd h hpass

/-- Two sources with the same destination. -/
def sharedDestination : Request where
  dirCount := 2
  dirs := fun side i => some (side.pick (if i = 0 then "/s1".toList else "/s2".toList) "/b".toList)
  check := fun side => some (side.pick "/s1".toList "/b".toList)
  answer := fun side i =>
    some (side.pick (if i = 0 then "/s1".toList else "/s2".toList) "/b".toList)
  block := fun _ _ => none

/-- Two sources are backed up to one destination. -/
theorem not_rejects_sharedDestination : ¬ ∀ q : Request, q.Rejects := by
  intro h
  rcases h sharedDestination with ⟨dirs, -, hadm⟩ | ⟨r, report, hreturns, -⟩
  · have hshared : ∀ i, sharedDestination.answer .destination i = some "/b".toList := fun _ => rfl
    apply hadm.distinct.side .destination 1 (by decide) 0 (by decide)
    rw [hshared, hshared]
  · exact absurd hreturns (fun h => by cases h)

end

end TokuBackup.Resolution
