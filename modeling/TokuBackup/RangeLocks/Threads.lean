import TokuBackup.RangeLocks
import TokuBackup.Lib.Machine
import Mathlib.Algebra.BigOperators.Group.Finset.Piecewise
import Mathlib.Algebra.Order.Group.Multiset
import Mathlib.Order.Interval.Set.Basic

/-!
# Threads that lock ranges of one source file

Any number of threads call `lock_range` and `unlock_range` on one `source_file`, in any
order and any number of times; a thread may hold many ranges, also one range many times.
The vector and the condition variable are only used under `m_mutex`, so what a thread does
between taking and leaving the mutex is one step here. A thread that waits for the condition
has left the mutex; `pthread_cond_wait` may also return without a broadcast.
-/

namespace TokuBackup.RangeThreads

open Lib

/-! ## State -/

def EINVAL : Int := 22

/-- Where a thread is in its calls on the source file. -/
inductive Pc where
  /-- In no call. -/
  | outside
  /-- `lock_range` waits for `m_mutex`. -/
  | lockEntering (r : Range)
  /-- `lock_range` has `m_mutex`; the condition of its loop is next. -/
  | lockScanning (r : Range)
  /-- In `pthread_cond_wait`. -/
  | asleep (r : Range)
  /-- `pthread_cond_wait` returns as soon as it has `m_mutex` again. -/
  | woken (r : Range)
  /-- `lock_range` returns and leaves `m_mutex`. -/
  | lockLeaving
  /-- `unlock_range` waits for `m_mutex`. -/
  | unlockEntering (r : Range)
  /-- `unlock_range` has `m_mutex`; its loop is next. -/
  | unlockScanning (r : Range)
  /-- `unlock_range` returns and leaves `m_mutex`. -/
  | unlockLeaving (result : Int)
  deriving DecidableEq

/-- What `pthread_cond_broadcast` does to a thread. -/
def Pc.broadcast : Pc → Pc
  | .asleep r => .woken r
  | pc => pc

/-- The range that a thread in `unlock_range` has not yet removed. -/
def Pc.unlocking : Pc → Option Range
  | .unlockEntering r => some r
  | .unlockScanning r => some r
  | _ => none

structure State (ι : Type) where
  /-- `m_mutex` -/
  mutex : Option ι
  /-- `m_locked_ranges` -/
  lockedRanges : List Range
  pc : ι → Pc
  /-- Whether `the_manager.fatal_error` was called. -/
  fatal : Bool
  /-- Ghost: the ranges that a thread has locked and not unlocked. -/
  held : ι → Multiset Range

def State.init {ι : Type} : State ι := ⟨none, [], fun _ => .outside, false, fun _ => 0⟩

/-! ## Steps -/

inductive Action (ι : Type) where
  | callLock (p : ι) (r : Range)
  | callUnlock (p : ι) (r : Range)
  /-- `m_mutex` is taken. -/
  | enter (p : ι)
  /-- The step under `m_mutex`. -/
  | scan (p : ι)
  /-- `pthread_cond_wait` wakes up by itself. -/
  | wake (p : ι)
  /-- `m_mutex` is left and the call returns. -/
  | leave (p : ι)

section

variable {ι : Type} [DecidableEq ι]

def State.goto (s : State ι) (p : ι) (pc : Pc) : State ι :=
  { s with pc := Function.update s.pc p pc }

def stepEnter (s : State ι) (p : ι) : Option (State ι) :=
  if s.mutex.isSome then none
  else
    match s.pc p with
    | .lockEntering r => some { s.goto p (.lockScanning r) with mutex := some p }
    | .woken r => some { s.goto p (.lockScanning r) with mutex := some p }
    | .unlockEntering r => some { s.goto p (.unlockScanning r) with mutex := some p }
    | _ => none

/-- The body of the loop of `lock_range` and that of `unlock_range`. -/
def stepScan (s : State ι) (p : ι) : Option (State ι) :=
  match s.pc p with
  | .lockScanning r =>
    match lockRange s.lockedRanges r with
    | none => some { s.goto p (.asleep r) with mutex := none }
    | some lockedRanges =>
      some { s.goto p .lockLeaving with
        lockedRanges := lockedRanges
        held := Function.update s.held p (r ::ₘ s.held p) }
  | .unlockScanning r =>
    match unlockRange s.lockedRanges r with
    | none => some { s.goto p (.unlockLeaving EINVAL) with fatal := true }
    | some lockedRanges =>
      some { s with
        lockedRanges := lockedRanges
        held := Function.update s.held p ((s.held p).erase r)
        pc := Function.update (fun q => (s.pc q).broadcast) p (.unlockLeaving 0) }
  | _ => none

def stepWake (s : State ι) (p : ι) : Option (State ι) :=
  match s.pc p with
  | .asleep r => some (s.goto p (.woken r))
  | _ => none

def stepLeave (s : State ι) (p : ι) : Option (State ι) :=
  match s.pc p with
  | .lockLeaving => some { s.goto p .outside with mutex := none }
  | .unlockLeaving _ => some { s.goto p .outside with mutex := none }
  | _ => none

def step (s : State ι) : Action ι → Option (State ι)
  | .callLock p r => if s.pc p = .outside then some (s.goto p (.lockEntering r)) else none
  | .callUnlock p r => if s.pc p = .outside then some (s.goto p (.unlockEntering r)) else none
  | .enter p => stepEnter s p
  | .scan p => stepScan s p
  | .wake p => stepWake s p
  | .leave p => stepLeave s p

/-- A thread unlocks only ranges it holds. -/
def UnlocksHeld (s : State ι) : Action ι → Prop
  | .callUnlock p r => r ∈ s.held p
  | _ => True

instance (s : State ι) (a : Action ι) : Decidable (UnlocksHeld s a) := by
  apply @Action.casesOn ι (fun a => Decidable (UnlocksHeld s a)) a
  case callUnlock => exact fun p r => Multiset.decidableMem r (s.held p)
  case callLock => exact fun _ _ => isTrue trivial
  all_goals exact fun _ => isTrue trivial

/-! ### What a step can do -/

/-- The steps of thread `p`, by what they change besides the place of the thread. -/
inductive Steps (s : State ι) (p : ι) : State ι → Prop
  | quiet (pc : Pc) (mutex : Option ι) (hasleep : ∀ r, pc ≠ .asleep r)
      (hleaving : ∀ c, pc ≠ .unlockLeaving c)
      (hholds : ∀ r, pc.unlocking = some r → (s.pc p).unlocking = some r ∨ r ∈ s.held p) :
      Steps s p { s.goto p pc with mutex := mutex }
  | sleep (r : Range) (hl : lockRange s.lockedRanges r = none) :
      Steps s p { s.goto p (.asleep r) with mutex := none }
  | grant (r : Range) (l : List Range) (hl : lockRange s.lockedRanges r = some l) :
      Steps s p { s.goto p .lockLeaving with
        lockedRanges := l
        held := Function.update s.held p (r ::ₘ s.held p) }
  | release (r : Range) (l : List Range) (hp : (s.pc p).unlocking = some r)
      (hl : unlockRange s.lockedRanges r = some l) :
      Steps s p { s with
        lockedRanges := l
        held := Function.update s.held p ((s.held p).erase r)
        pc := Function.update (fun q => (s.pc q).broadcast) p (.unlockLeaving 0) }
  | fail (r : Range) (hp : (s.pc p).unlocking = some r)
      (hl : unlockRange s.lockedRanges r = none) :
      Steps s p { s.goto p (.unlockLeaving EINVAL) with fatal := true }

theorem stepEnter_cases {s s' : State ι} {p : ι} (h : stepEnter s p = some s') :
    Steps s p s' := by
  unfold stepEnter at h
  split at h
  · cases h
  · split at h
    · cases h
      exact .quiet _ _ (by simp) (by simp) (by simp [Pc.unlocking])
    · cases h
      exact .quiet _ _ (by simp) (by simp) (by simp [Pc.unlocking])
    · rename_i r hp
      cases h
      exact .quiet _ _ (by simp) (by simp) (by simp [Pc.unlocking, hp])
    · cases h

theorem stepScan_cases {s s' : State ι} {p : ι} (h : stepScan s p = some s') :
    Steps s p s' := by
  unfold stepScan at h
  split at h
  · split at h
    · rename_i hl
      cases h
      exact .sleep _ hl
    · rename_i hl
      cases h
      exact .grant _ _ hl
  · rename_i hp
    split at h
    · rename_i hl
      cases h
      exact .fail _ (by rw [hp]; rfl) hl
    · rename_i hl
      cases h
      exact .release _ _ (by rw [hp]; rfl) hl
  · cases h

theorem stepWake_cases {s s' : State ι} {p : ι} (h : stepWake s p = some s') :
    Steps s p s' := by
  unfold stepWake at h
  split at h
  · cases h
    exact .quiet _ _ (by simp) (by simp) (by simp [Pc.unlocking])
  · cases h

theorem stepLeave_cases {s s' : State ι} {p : ι} (h : stepLeave s p = some s') :
    Steps s p s' := by
  unfold stepLeave at h
  split at h
  · cases h
    exact .quiet _ _ (by simp) (by simp) (by simp [Pc.unlocking])
  · cases h
    exact .quiet _ _ (by simp) (by simp) (by simp [Pc.unlocking])
  · cases h

theorem step_cases {s s' : State ι} {a : Action ι} (hok : UnlocksHeld s a)
    (h : step s a = some s') : ∃ p, Steps s p s' := by
  cases a with
  | callLock p r =>
    rw [step, Option.ite_none_right_eq_some, Option.some.injEq] at h
    obtain ⟨-, rfl⟩ := h
    exact ⟨p, .quiet _ _ (by simp) (by simp) (by simp [Pc.unlocking])⟩
  | callUnlock p r =>
    rw [step, Option.ite_none_right_eq_some, Option.some.injEq] at h
    obtain ⟨-, rfl⟩ := h
    refine ⟨p, .quiet _ _ (by simp) (by simp) fun q hq => Or.inr ?_⟩
    cases hq
    exact hok
  | enter p => exact ⟨p, stepEnter_cases h⟩
  | scan p => exact ⟨p, stepScan_cases h⟩
  | wake p => exact ⟨p, stepWake_cases h⟩
  | leave p => exact ⟨p, stepLeave_cases h⟩

end

/-! ## Ranges as half-open intervals -/

/-- `[lo, hi)` -/
def interval (r : Range) : Set Nat := Set.Ico r.lo r.hi

theorem inter_interval {r q : Range} :
    interval r ∩ interval q = ∅ ↔ r.Disjoint q := by
  rw [Range.disjoint_iff, Set.eq_empty_iff_forall_notMem]
  constructor
  · intro h i h1 h2 h3 h4
    exact h i ⟨⟨h1, h2⟩, h3, h4⟩
  · rintro h i ⟨hr, hq⟩
    exact h i hr.1 hr.2 hq.1 hq.2

/-- A request has to wait when it intersects a locked range, and only then. -/
theorem lockRange_none {l : List Range} {r : Range} :
    lockRange l r = none ↔ ∃ q ∈ l, ¬ q.Disjoint r := by
  rw [lockRange, ite_eq_left_iff]
  simp [lockRangeWouldBlockUnlocked, Range.Disjoint]

/-- Two instances in the vector are at two places of it. -/
theorem disjoint_of_pair_le {l : List Range} (hl : l.Pairwise Range.Disjoint) {r q : Range}
    (h : ({r, q} : Multiset Range) ≤ l) : r.Disjoint q := by
  obtain ⟨l', hperm, hsub⟩ := Multiset.coe_le.mp (show (↑[r, q] : Multiset Range) ≤ l from h)
  have hpair : [r, q].Pairwise Range.Disjoint :=
    hperm.pairwise (hl.sublist hsub) Range.Disjoint.symm
  exact List.rel_of_pairwise_cons hpair List.mem_cons_self

/-! ## Sums of what the threads hold -/

section

variable {ι : Type} [Fintype ι] [DecidableEq ι]

theorem sum_update (held : ι → Multiset Range) (p : ι) (m : Multiset Range) :
    ∑ i, Function.update held p m i = m + ∑ i ∈ Finset.univ.erase p, held i := by
  rw [Finset.sum_update_of_mem (Finset.mem_univ p), Finset.sdiff_singleton_eq_erase]

theorem sum_update_cons (held : ι → Multiset Range) (p : ι) (r : Range) :
    ∑ i, Function.update held p (r ::ₘ held p) i = r ::ₘ ∑ i, held i := by
  rw [sum_update, Multiset.cons_add, Finset.add_sum_erase _ _ (Finset.mem_univ p)]

theorem sum_update_erase {held : ι → Multiset Range} {p : ι} {r : Range} (h : r ∈ held p) :
    ∑ i, Function.update held p ((held p).erase r) i = (∑ i, held i).erase r := by
  rw [sum_update, ← Multiset.erase_add_left_pos _ h,
    Finset.add_sum_erase _ _ (Finset.mem_univ p)]

omit [DecidableEq ι] in
theorem mem_sum_held {held : ι → Multiset Range} {r : Range} :
    r ∈ ∑ i, held i ↔ ∃ i, r ∈ held i := by
  rw [Multiset.mem_sum]
  simp

/-! ## The invariant -/

structure Inv (s : State ι) : Prop where
  /-- The vector has what the threads hold. -/
  locked : (s.lockedRanges : Multiset Range) = ∑ i, s.held i
  disjoint : s.lockedRanges.Pairwise Range.Disjoint
  /-- What a thread is about to unlock it holds. -/
  holds : ∀ p r, (s.pc p).unlocking = some r → r ∈ s.held p
  returned : ∀ p c, s.pc p = .unlockLeaving c → c = 0
  /-- A thread that sleeps has a reason. -/
  waiting : ∀ p r, s.pc p = .asleep r → ∃ q ∈ s.lockedRanges, ¬ q.Disjoint r
  noFatal : s.fatal = false

omit [DecidableEq ι] in
theorem inv_init : Inv (State.init : State ι) where
  locked := by simp [State.init]
  disjoint := List.Pairwise.nil
  holds := by simp [State.init, Pc.unlocking]
  returned := by simp [State.init]
  waiting := by simp [State.init]
  noFatal := rfl

omit [DecidableEq ι] in
/-- What a thread is about to unlock is in the vector. -/
theorem Inv.mem_of_unlocking {s : State ι} (h : Inv s) {p : ι} {r : Range}
    (hp : (s.pc p).unlocking = some r) : r ∈ s.lockedRanges := by
  rw [← Multiset.mem_coe, h.locked]
  exact mem_sum_held.mpr ⟨p, h.holds p r hp⟩

omit [Fintype ι] in
theorem State.goto_cases {s : State ι} {p q : ι} {pc pc' : Pc} (h : (s.goto p pc).pc q = pc') :
    pc = pc' ∨ s.pc q = pc' := by
  simp only [State.goto, Function.update_apply] at h
  split at h
  · exact Or.inl h
  · exact Or.inr h

theorem Inv.quiet {s : State ι} (h : Inv s) {p : ι} {pc : Pc} {mutex : Option ι}
    (hasleep : ∀ r, pc ≠ .asleep r) (hleaving : ∀ c, pc ≠ .unlockLeaving c)
    (hholds : ∀ r, pc.unlocking = some r → (s.pc p).unlocking = some r ∨ r ∈ s.held p) :
    Inv { s.goto p pc with mutex := mutex } where
  locked := h.locked
  disjoint := h.disjoint
  noFatal := h.noFatal
  holds := by
    intro q r hq
    simp only [State.goto, Function.update_apply] at hq ⊢
    split at hq
    · rename_i heq
      subst heq
      rcases hholds r hq with hold | hold
      · exact h.holds q r hold
      · exact hold
    · exact h.holds q r hq
  returned := by
    intro q c hq
    rcases State.goto_cases hq with hpc | hq
    · exact absurd hpc (hleaving c)
    · exact h.returned q c hq
  waiting := by
    intro q r hq
    rcases State.goto_cases hq with hpc | hq
    · exact absurd hpc (hasleep r)
    · exact h.waiting q r hq

theorem Inv.sleep {s : State ι} (h : Inv s) {p : ι} {r : Range}
    (hl : lockRange s.lockedRanges r = none) :
    Inv { s.goto p (.asleep r) with mutex := none } where
  locked := h.locked
  disjoint := h.disjoint
  noFatal := h.noFatal
  holds := by
    intro q t hq
    simp only [State.goto, Function.update_apply] at hq ⊢
    split at hq
    · cases hq
    · exact h.holds q t hq
  returned := by
    intro q c hq
    rcases State.goto_cases hq with hpc | hq
    · cases hpc
    · exact h.returned q c hq
  waiting := by
    intro q t hq
    rcases State.goto_cases hq with hpc | hq
    · cases hpc
      exact lockRange_none.mp hl
    · exact h.waiting q t hq

theorem Inv.grant {s : State ι} (h : Inv s) {p : ι} {r : Range} {l : List Range}
    (hl : lockRange s.lockedRanges r = some l) :
    Inv { s.goto p .lockLeaving with
      lockedRanges := l
      held := Function.update s.held p (r ::ₘ s.held p) } := by
  obtain ⟨rfl, hfree⟩ := lockRange_some hl
  constructor
  case locked =>
    simp only
    rw [sum_update_cons, ← h.locked, ← Multiset.coe_add, Multiset.coe_singleton,
      Multiset.add_comm, Multiset.singleton_add]
  case disjoint =>
    refine List.pairwise_append.mpr ⟨h.disjoint, List.pairwise_singleton _ _, fun q hq t ht => ?_⟩
    rw [List.mem_singleton] at ht
    subst ht
    exact hfree q hq
  case noFatal => exact h.noFatal
  case holds =>
    intro q t hq
    simp only [State.goto, Function.update_apply] at hq ⊢
    split at hq
    · cases hq
    · rename_i hne
      rw [if_neg hne]
      exact h.holds q t hq
  case returned =>
    intro q c hq
    rcases State.goto_cases hq with hpc | hq
    · cases hpc
    · exact h.returned q c hq
  case waiting =>
    intro q t hq
    rcases State.goto_cases hq with hpc | hq
    · cases hpc
    · obtain ⟨u, hu, hut⟩ := h.waiting q t hq
      exact ⟨u, List.mem_append_left _ hu, hut⟩

theorem Pc.broadcast_unlocking (pc : Pc) : pc.broadcast.unlocking = pc.unlocking := by
  cases pc <;> rfl

theorem Pc.broadcast_leaving {pc : Pc} {c : Int} (h : pc.broadcast = .unlockLeaving c) :
    pc = .unlockLeaving c := by
  cases pc <;> simp_all [Pc.broadcast]

theorem Pc.broadcast_ne_asleep (pc : Pc) (r : Range) : pc.broadcast ≠ .asleep r := by
  cases pc <;> simp [Pc.broadcast]

theorem Inv.release {s : State ι} (h : Inv s) {p : ι} {r : Range} {l : List Range}
    (hp : (s.pc p).unlocking = some r) (hl : unlockRange s.lockedRanges r = some l) :
    Inv { s with
      lockedRanges := l
      held := Function.update s.held p ((s.held p).erase r)
      pc := Function.update (fun q => (s.pc q).broadcast) p (.unlockLeaving 0) } := by
  obtain ⟨l', hl', hperm⟩ := unlockRange_of_mem (h.mem_of_unlocking hp)
  rw [hl] at hl'
  cases hl'
  constructor
  case locked =>
    simp only
    rw [sum_update_erase (h.holds p r hp), ← h.locked, Multiset.coe_erase]
    exact Multiset.coe_eq_coe.mpr hperm
  case disjoint =>
    have hsub := h.disjoint.sublist (List.erase_sublist (a := r))
    exact hperm.symm.pairwise hsub Range.Disjoint.symm
  case noFatal => exact h.noFatal
  case holds =>
    intro q t hq
    simp only [Function.update_apply] at hq ⊢
    split at hq
    · cases hq
    · rename_i hne
      rw [if_neg hne]
      rw [Pc.broadcast_unlocking] at hq
      exact h.holds q t hq
  case returned =>
    intro q c hq
    simp only [Function.update_apply] at hq
    split at hq
    · cases hq
      rfl
    · exact h.returned q c (Pc.broadcast_leaving hq)
  case waiting =>
    intro q t hq
    simp only [Function.update_apply] at hq
    split at hq
    · cases hq
    · exact absurd hq (Pc.broadcast_ne_asleep _ t)

theorem inv_step (s : State ι) (a : Action ι) (s' : State ι) (h : Inv s)
    (hok : UnlocksHeld s a) (hstep : step s a = some s') : Inv s' := by
  obtain ⟨p, hsteps⟩ := step_cases hok hstep
  cases hsteps with
  | quiet pc mutex hasleep hleaving hholds => exact h.quiet hasleep hleaving hholds
  | sleep r hl => exact h.sleep hl
  | grant r l hl => exact h.grant hl
  | release r l hp hl => exact h.release hp hl
  | fail r hp hl =>
    obtain ⟨l, hl', -⟩ := unlockRange_of_mem (h.mem_of_unlocking hp)
    rw [hl] at hl'
    cases hl'

/-! ## Runs -/

theorem inv_run {as : List (Action ι)} {s : State ι}
    (hok : RunOk step UnlocksHeld State.init as) (hrun : run step State.init as = some s) :
    Inv s :=
  run_invariant inv_step inv_init hok hrun

/-- `unlock_range` finds the range, removes one instance of it and returns 0. -/
theorem Inv.unlock {s : State ι} (h : Inv s) {p : ι} {r : Range}
    (hp : s.pc p = .unlockScanning r) :
    ∃ s', step s (.scan p) = some s' ∧ s'.pc p = .unlockLeaving 0 ∧
      r ::ₘ (s'.lockedRanges : Multiset Range) = s.lockedRanges ∧
      r ::ₘ s'.held p = s.held p ∧ ∀ i, i ≠ p → s'.held i = s.held i := by
  have hun : (s.pc p).unlocking = some r := by
    rw [hp]
    rfl
  obtain ⟨l, hl, hperm⟩ := unlockRange_of_mem (h.mem_of_unlocking hun)
  have hstep : step s (.scan p) = some { s with
      lockedRanges := l
      held := Function.update s.held p ((s.held p).erase r)
      pc := Function.update (fun q => (s.pc q).broadcast) p (.unlockLeaving 0) } := by
    simp only [step, stepScan, hp, hl]
  refine ⟨_, hstep, by simp, ?_, ?_, fun i hi => by simp [hi]⟩
  · rw [Multiset.cons_coe, Multiset.coe_eq_coe]
    exact (hperm.cons r).trans (List.perm_cons_erase (h.mem_of_unlocking hun)).symm
  · simp only [Function.update_self]
    exact Multiset.cons_erase (h.holds p r hun)

/-- A request that intersects no held range is granted as soon as its thread has the mutex. -/
theorem Inv.granted {s : State ι} (h : Inv s) {p : ι} {r : Range}
    (hp : s.pc p = .lockScanning r)
    (hfree : ∀ i, ∀ q ∈ s.held i, interval q ∩ interval r = ∅) :
    ∃ s', step s (.scan p) = some s' ∧ s'.pc p = .lockLeaving ∧ s'.held p = r ::ₘ s.held p := by
  have hsome : lockRange s.lockedRanges r ≠ none := by
    intro hnone
    obtain ⟨q, hq, hint⟩ := lockRange_none.mp hnone
    rw [← Multiset.mem_coe, h.locked] at hq
    obtain ⟨i, hi⟩ := mem_sum_held.mp hq
    exact hint (inter_interval.mp (hfree i q hi))
  obtain ⟨l, hl⟩ := Option.ne_none_iff_exists'.mp hsome
  have hstep : step s (.scan p) = some { s.goto p .lockLeaving with
      lockedRanges := l
      held := Function.update s.held p (r ::ₘ s.held p) } := by
    simp only [step, stepScan, hp, hl]
  exact ⟨_, hstep, by simp [State.goto], by simp⟩

/-- The locks are exclusive and exact in every run in which the threads unlock only what they
hold. -/
theorem range_locks_exact {as : List (Action ι)} {s : State ι}
    (hok : RunOk step UnlocksHeld State.init as) (hrun : run step State.init as = some s) :
    (s.lockedRanges : Multiset Range) = ∑ i, s.held i ∧
    (∀ r q, {r, q} ≤ ∑ i, s.held i → interval r ∩ interval q = ∅) ∧
    (s.fatal = false ∧ ∀ p c, s.pc p = .unlockLeaving c → c = 0) ∧
    (∀ p r, s.pc p = .unlockScanning r →
      ∃ s', step s (.scan p) = some s' ∧ s'.pc p = .unlockLeaving 0 ∧
        r ::ₘ (s'.lockedRanges : Multiset Range) = s.lockedRanges ∧
        r ::ₘ s'.held p = s.held p ∧ ∀ i, i ≠ p → s'.held i = s.held i) ∧
    (∀ p r, s.pc p = .asleep r → ∃ i, ∃ q ∈ s.held i, interval q ∩ interval r ≠ ∅) ∧
    (∀ p r, s.pc p = .lockScanning r →
      (∀ i, ∀ q ∈ s.held i, interval q ∩ interval r = ∅) →
      ∃ s', step s (.scan p) = some s' ∧ s'.pc p = .lockLeaving ∧
        s'.held p = r ::ₘ s.held p) := by
  have hinv := inv_run hok hrun
  refine ⟨hinv.locked, fun r q hpair => ?_, ⟨hinv.noFatal, hinv.returned⟩,
    fun p r hp => hinv.unlock hp, fun p r hp => ?_, fun p r hp hfree => hinv.granted hp hfree⟩
  · rw [← hinv.locked] at hpair
    exact inter_interval.mpr (disjoint_of_pair_le hinv.disjoint hpair)
  · obtain ⟨q, hq, hint⟩ := hinv.waiting p r hp
    rw [← Multiset.mem_coe, hinv.locked] at hq
    obtain ⟨i, hi⟩ := mem_sum_held.mp hq
    exact ⟨i, q, hi, fun hdis => hint (inter_interval.mp hdis)⟩

end

/-- Thread 0 holds the whole file and an empty range twice, and gives back one of these while
thread 1 waits. -/
def waitingRun : List (Action (Fin 2)) :=
  [.callLock 0 ⟨0, llongMax⟩, .enter 0, .scan 0, .leave 0,
    .callLock 0 ⟨5, 5⟩, .enter 0, .scan 0, .leave 0,
    .callLock 0 ⟨5, 5⟩, .enter 0, .scan 0, .leave 0,
    .callLock 1 ⟨10, 20⟩, .enter 1, .scan 1,
    .callUnlock 0 ⟨5, 5⟩, .enter 0, .scan 0, .leave 0, .enter 1, .scan 1]

theorem range_locks_exact_waiting :
    ∃ s, run step State.init waitingRun = some s ∧
      s.lockedRanges = [⟨0, llongMax⟩, ⟨5, 5⟩] ∧ s.pc 1 = .asleep ⟨10, 20⟩ ∧
      (s.lockedRanges : Multiset Range) = ∑ i, s.held i := by
  have hok : RunOk step UnlocksHeld State.init waitingRun := by decide
  exact ⟨_, rfl, by decide, by decide, (range_locks_exact hok rfl).1⟩

end TokuBackup.RangeThreads
