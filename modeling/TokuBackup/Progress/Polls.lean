import TokuBackup.Progress.Account
import Mathlib.Algebra.Order.Field.Basic
import Mathlib.Data.List.Chain
import Mathlib.Tactic.GCongr

/-!
# When the progress stays in its range

`m_total_bytes_to_back_up` is that of the directory which is copied, while
`m_total_bytes_backed_up` counts the bytes of all directories so far. So what the callback is
told stays between 0 and 1 and does not decrease exactly for the directory sets whose
directories have ever smaller sums, of which the last one still covers all bytes to copy:
`Covered`. When nothing is excluded and there are two directories or more, all files must be
empty for that.
-/

namespace TokuBackup.Progress

open Kernel Lib
open Copier (todoName entryPath)

variable {D : DirectorySet} {tree : Path → SourceTree} {s s' : State}

/-- The sums get no larger from one directory to the next, and the last one is at least the
number of bytes to copy in all directories. -/
structure Covered (D : DirectorySet) (tree : Path → SourceTree) : Prop where
  shrinking : ∀ i, i + 1 < D.dirs.length → totalOf D tree (i + 1) ≤ totalOf D tree i
  last : ∀ i, D.dirs.length = i + 1 → bytesBefore D tree (i + 1) ≤ totalOf D tree i

theorem fraction_le {p q : Nat × Nat} (h₁ : p.1 ≤ q.1) (h₂ : q.2 ≤ p.2) :
    fraction p ≤ fraction q := by
  unfold fraction
  gcongr

theorem Covered.antitone (h : Covered D tree) {i j : Nat} (hij : i ≤ j)
    (hj : j < D.dirs.length) : totalOf D tree j ≤ totalOf D tree i := by
  induction hij with
  | refl => exact le_rfl
  | step _ ih => exact (h.shrinking _ hj).trans (ih (Nat.lt_of_succ_lt hj))

/-- All bytes are covered by the sum of any directory. -/
theorem Covered.bytes_le (h : Covered D tree) {i : Nat} (hi : i < D.dirs.length) :
    bytesBefore D tree D.dirs.length ≤ totalOf D tree i := by
  obtain ⟨n, hn⟩ := Nat.exists_eq_succ_of_ne_zero (Nat.ne_zero_of_lt hi)
  have hlast := h.last n hn
  have hmono := h.antitone (i := i) (j := n) (by omega) (by omega)
  rw [hn]
  exact hlast.trans hmono

/-- What holds of the polls so far when the set is covered. -/
structure Polled (D : DirectorySet) (tree : Path → SourceTree) (s : State) : Prop where
  inRange : ∀ p ∈ s.polls, p.1 ≤ p.2
  ordered : (s.polls.map fraction).Pairwise (· ≤ ·)
  behind : ∀ p ∈ s.polls, p.1 ≤ s.totalBytesBackedUp
  above : ∀ p ∈ s.polls, ∀ i, s.index ≤ i → i < D.dirs.length → totalOf D tree i ≤ p.2

/-- A step without a poll: the bytes and the index do not go down. -/
theorem Polled.quiet (h : Polled D tree s) (hpolls : s'.polls = s.polls)
    (hbytes : s.totalBytesBackedUp ≤ s'.totalBytesBackedUp) (hindex : s.index ≤ s'.index) :
    Polled D tree s' where
  inRange := by
    rw [hpolls]
    exact h.inRange
  ordered := by
    rw [hpolls]
    exact h.ordered
  behind p hp := by
    rw [hpolls] at hp
    exact (h.behind p hp).trans hbytes
  above p hp i hi := by
    rw [hpolls] at hp
    exact h.above p hp i (hindex.trans hi)

/-- A poll in the middle of a directory. -/
theorem Polled.poll (h : Polled D tree s) (hC : Covered D tree) {pending : List (List Path)}
    (hW : Working D tree s pending) (pc : Pc) : Polled D tree { s.poll with pc := pc } := by
  have hbytes : s.totalBytesBackedUp ≤ s.totalBytesToBackUp := by
    have hnext : s.index + 1 ≤ D.dirs.length := hW.index
    have hmono : bytesBefore D tree (s.index + 1) ≤ bytesBefore D tree D.dirs.length :=
      bytesBefore_mono hnext
    have hle := hC.bytes_le hW.index
    have haccount := hW.account
    rw [hW.total]
    omega
  have hmem : ∀ p ∈ s.poll.polls, p ∈ s.polls ∨ p =
    (s.totalBytesBackedUp, s.totalBytesToBackUp) := by
    intro p hp
    exact (List.mem_append.mp hp).imp id List.mem_singleton.mp
  refine ⟨fun p hp => ?_, ?_, fun p hp => ?_, fun p hp i hi hlt => ?_⟩
  · rcases hmem p hp with hp | rfl
    · exact h.inRange p hp
    · exact hbytes
  · change ((s.polls ++ [_]).map fraction).Pairwise (· ≤ ·)
    rw [List.map_append, List.pairwise_append]
    refine ⟨h.ordered, List.pairwise_singleton _ _, fun x hx y hy => ?_⟩
    obtain ⟨p, hp, rfl⟩ := List.mem_map.mp hx
    obtain ⟨q, hq, rfl⟩ := List.mem_map.mp hy
    rw [List.mem_singleton.mp hq]
    refine fraction_le (h.behind p hp) ?_
    change s.totalBytesToBackUp ≤ p.2
    rw [hW.total]
    exact h.above p hp _ le_rfl hW.index
  · rcases hmem p hp with hp | rfl
    · exact h.behind p hp
    · exact le_rfl
  · rcases hmem p hp with hp | rfl
    · exact h.above p hp i hi hlt
    · change totalOf D tree i ≤ s.totalBytesToBackUp
      rw [hW.total]
      exact hC.antitone hi hlt

end TokuBackup.Progress
