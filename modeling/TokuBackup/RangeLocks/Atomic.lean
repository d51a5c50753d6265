import TokuBackup.RangeLocks.Threads
import TokuBackup.Lib.Linearization

/-!
# Range locks as single steps

What `lock_range` and `unlock_range` are for: a thread takes a range when no thread holds one
that intersects it, and gives back a range that it holds, each in one step. The calls of
`RangeThreads`, which take and leave `m_mutex`, wait for the condition and are woken, do no more
than that: each takes effect at one of its steps under the mutex. This is why a call is one step
where the files are modelled.
-/

namespace TokuBackup.RangeThreads

open Lib

variable {ι : Type}

/-! ## The abstract lock -/

inductive RangeCall (ι : Type) where
  | lock (p : ι) (r : Range)
  | unlock (p : ι) (r : Range)

def RangeCall.thread : RangeCall ι → ι
  | .lock p _ => p
  | .unlock p _ => p

open Classical in
/-- What the threads hold before and after a call. -/
noncomputable def atomicStep (held : ι → Multiset Range) :
    RangeCall ι → Option (ι → Multiset Range)
  | .lock p r =>
    if ∀ i, ∀ q ∈ held i, interval q ∩ interval r = ∅ then
      some (Function.update held p (r ::ₘ held p))
    else none
  | .unlock p r =>
    if r ∈ held p then some (Function.update held p ((held p).erase r)) else none

theorem atomicStep_lock [DecidableEq ι] {held : ι → Multiset Range} {p : ι} {r : Range}
    (hfree : ∀ i, ∀ q ∈ held i, interval q ∩ interval r = ∅) :
    atomicStep held (.lock p r) = some (Function.update held p (r ::ₘ held p)) := by
  rw [atomicStep, if_pos hfree]
  congr!

theorem atomicStep_unlock [DecidableEq ι] {held : ι → Multiset Range} {p : ι} {r : Range}
    (hmem : r ∈ held p) :
    atomicStep held (.unlock p r) = some (Function.update held p ((held p).erase r)) := by
  rw [atomicStep, if_pos hmem]
  congr!

/-! ## The calls of the threads -/

/-- The call of a thread that has begun and not taken effect. -/
def Pc.pending (p : ι) : Pc → List (RangeCall ι)
  | .lockEntering r => [.lock p r]
  | .lockScanning r => [.lock p r]
  | .asleep r => [.lock p r]
  | .woken r => [.lock p r]
  | .unlockEntering r => [.unlock p r]
  | .unlockScanning r => [.unlock p r]
  | _ => []

/-- The call that an action begins. -/
def Action.begins : Action ι → Option (RangeCall ι)
  | .callLock p r => some (.lock p r)
  | .callUnlock p r => some (.unlock p r)
  | _ => none

def linearization : Linearization (State ι) (ι → Multiset Range) (Action ι) (RangeCall ι) ι where
  abs := State.held
  thread := RangeCall.thread
  begins := Action.begins
  pending s p := (s.pc p).pending p

theorem Pc.broadcast_pending (p : ι) (pc : Pc) : pc.broadcast.pending p = pc.pending p := by
  cases pc <;> rfl

section

variable [DecidableEq ι] {s s' : State ι} {p : ι} {a : Action ι}

/-- A thread goes on within its call. -/
theorem effect_quiet {pc : Pc} {mutex : Option ι} {fatal : Bool} (ha : a.begins = none)
    (hpc : (s.pc p).pending p = pc.pending p) :
    linearization.Effect atomicStep s a { s.goto p pc with mutex := mutex, fatal := fatal } := by
  refine Or.inl ⟨rfl, fun i => ?_⟩
  change (s.pc i).pending i ++ linearization.calls i a.begins.toList =
    (Function.update s.pc p pc i).pending i
  rw [ha]
  by_cases hi : i = p
  · subst hi
    rw [Function.update_self, ← hpc]
    exact List.append_nil _
  · rw [Function.update_of_ne hi]
    exact List.append_nil _

/-- A call begins. -/
theorem effect_begin {b : RangeCall ι} {pc : Pc} (ha : a.begins = some b) (hb : b.thread = p)
    (hold : (s.pc p).pending p = []) (hnew : pc.pending p = [b]) :
    linearization.Effect atomicStep s a (s.goto p pc) := by
  refine Or.inl ⟨rfl, fun i => ?_⟩
  change (s.pc i).pending i ++ linearization.calls i a.begins.toList =
    (Function.update s.pc p pc i).pending i
  rw [ha, Option.toList_some]
  by_cases hi : i = p
  · subst hi
    rw [Function.update_self, hold, hnew, List.nil_append]
    exact List.filter_cons_of_pos (decide_eq_true hb)
  · rw [Function.update_of_ne hi]
    have hnone : linearization.calls i [b] = [] :=
      List.filter_cons_of_neg (by simpa [linearization, hb] using Ne.symm hi)
    rw [hnone, List.append_nil]

/-- A call takes effect. -/
theorem effect_take {b : RangeCall ι} (ha : a.begins = none) (hb : b.thread = p)
    (hstep : atomicStep s.held b = some s'.held)
    (hold : (s.pc p).pending p = [b]) (hnew : (s'.pc p).pending p = [])
    (hother : ∀ i, i ≠ p → (s'.pc i).pending i = (s.pc i).pending i) :
    linearization.Effect atomicStep s a s' := by
  refine Or.inr ⟨b, hstep, fun i => ?_⟩
  change (s.pc i).pending i ++ linearization.calls i a.begins.toList =
    linearization.calls i [b] ++ (s'.pc i).pending i
  rw [ha]
  by_cases hi : i = p
  · subst hi
    rw [hold, hnew]
    have hself : linearization.calls i [b] = [b] :=
      List.filter_cons_of_pos (decide_eq_true hb)
    rw [hself]
    rfl
  · have hnone : linearization.calls i [b] = [] :=
      List.filter_cons_of_neg (by simpa [linearization, hb] using Ne.symm hi)
    rw [hnone, hother i hi]
    exact List.append_nil _

theorem effect_enter (h : stepEnter s p = some s') :
    linearization.Effect atomicStep s (.enter p) s' := by
  unfold stepEnter at h
  split at h
  · cases h
  · split at h
    · rename_i hpc
      cases h
      exact effect_quiet rfl (by rw [hpc]; rfl)
    · rename_i hpc
      cases h
      exact effect_quiet rfl (by rw [hpc]; rfl)
    · rename_i hpc
      cases h
      exact effect_quiet rfl (by rw [hpc]; rfl)
    · cases h

theorem effect_wake (h : stepWake s p = some s') :
    linearization.Effect atomicStep s (.wake p) s' := by
  unfold stepWake at h
  split at h
  · rename_i hpc
    cases h
    exact effect_quiet rfl (by rw [hpc]; rfl)
  · cases h

theorem effect_leave (h : stepLeave s p = some s') :
    linearization.Effect atomicStep s (.leave p) s' := by
  unfold stepLeave at h
  split at h
  · rename_i hpc
    cases h
    exact effect_quiet rfl (by rw [hpc]; rfl)
  · rename_i hpc
    cases h
    exact effect_quiet rfl (by rw [hpc]; rfl)
  · cases h

variable [Fintype ι]

/-- The step under the mutex is where a call takes effect, or where it goes to sleep. -/
theorem effect_scan (hinv : Inv s) (h : stepScan s p = some s') :
    linearization.Effect atomicStep s (.scan p) s' := by
  unfold stepScan at h
  split at h
  · rename_i r hpc
    split at h
    · cases h
      exact effect_quiet rfl (by rw [hpc]; rfl)
    · rename_i l hl
      cases h
      refine effect_take (p := p) (b := .lock p r) rfl rfl ?_ (by rw [hpc]; rfl) ?_ fun i hi => ?_
      · refine atomicStep_lock fun i q hq => inter_interval.mpr ?_
        refine (lockRange_some hl).2 q ?_
        rw [← Multiset.mem_coe, hinv.locked]
        exact mem_sum_held.mpr ⟨i, hq⟩
      · simp [State.goto, Pc.pending]
      · simp [State.goto, hi]
  · rename_i r hpc
    have hun : (s.pc p).unlocking = some r := by
      rw [hpc]
      rfl
    split at h
    · rename_i hl
      obtain ⟨l, hl', -⟩ := unlockRange_of_mem (hinv.mem_of_unlocking hun)
      rw [hl] at hl'
      cases hl'
    · cases h
      refine effect_take (p := p) (b := .unlock p r) rfl rfl ?_ (by rw [hpc]; rfl) ?_ fun i hi => ?_
      · exact atomicStep_unlock (hinv.holds p r hun)
      · simp [Pc.pending]
      · simp [hi, Pc.broadcast_pending]
  · cases h

theorem step_effect (hinv : Inv s) (h : step s a = some s') :
    linearization.Effect atomicStep s a s' := by
  cases a with
  | callLock p r =>
    obtain ⟨hpc, h⟩ := Option.ite_none_right_eq_some.mp h
    cases h
    exact effect_begin rfl rfl (by rw [hpc]; rfl) rfl
  | callUnlock p r =>
    obtain ⟨hpc, h⟩ := Option.ite_none_right_eq_some.mp h
    cases h
    exact effect_begin rfl rfl (by rw [hpc]; rfl) rfl
  | enter p => exact effect_enter h
  | scan p => exact effect_scan hinv h
  | wake p => exact effect_wake h
  | leave p => exact effect_leave h

end

/-! ## The mutex -/

/-- The thread is between taking and leaving the mutex. -/
def Pc.inside : Pc → Bool
  | .lockScanning _ => true
  | .lockLeaving => true
  | .unlockScanning _ => true
  | .unlockLeaving _ => true
  | _ => false

theorem Pc.broadcast_inside (pc : Pc) : pc.broadcast.inside = pc.inside := by
  cases pc <;> rfl

/-- The mutex is held by the thread that is inside. -/
def Exclusive (s : State ι) : Prop := ∀ p, (s.pc p).inside = true ↔ s.mutex = some p

section

variable [DecidableEq ι] {s s' : State ι} {p : ι} {pc : Pc}

/-- A thread that is outside of the mutex stays outside, or one that is inside stays inside. -/
theorem Exclusive.stay (h : Exclusive s) (hpc : pc.inside = (s.pc p).inside) :
    Exclusive (s.goto p pc) := by
  intro i
  change (Function.update s.pc p pc i).inside = true ↔ s.mutex = some i
  by_cases hi : i = p
  · subst hi
    rw [Function.update_self, hpc]
    exact h i
  · rw [Function.update_of_ne hi]
    exact h i

theorem Exclusive.enter (h : Exclusive s) (hfree : s.mutex = none) (hpc : pc.inside = true) :
    Exclusive { s.goto p pc with mutex := some p } := by
  intro i
  change (Function.update s.pc p pc i).inside = true ↔ some p = some i
  by_cases hi : i = p
  · subst hi
    rw [Function.update_self]
    exact ⟨fun _ => rfl, fun _ => hpc⟩
  · rw [Function.update_of_ne hi, h i, hfree]
    simp [Ne.symm hi]

theorem Exclusive.leave (h : Exclusive s) (hin : (s.pc p).inside = true)
    (hpc : pc.inside = false) : Exclusive { s.goto p pc with mutex := none } := by
  intro i
  change (Function.update s.pc p pc i).inside = true ↔ none = some i
  by_cases hi : i = p
  · subst hi
    rw [Function.update_self, hpc]
    simp
  · rw [Function.update_of_ne hi, h i, (h p).mp hin]
    simp [Ne.symm hi]

theorem exclusive_step {a : Action ι} (h : Exclusive s) (hstep : step s a = some s') :
    Exclusive s' := by
  cases a with
  | callLock p r =>
    obtain ⟨hpc, hstep⟩ := Option.ite_none_right_eq_some.mp hstep
    cases hstep
    exact h.stay (by rw [hpc]; rfl)
  | callUnlock p r =>
    obtain ⟨hpc, hstep⟩ := Option.ite_none_right_eq_some.mp hstep
    cases hstep
    exact h.stay (by rw [hpc]; rfl)
  | enter p =>
    simp only [step, stepEnter] at hstep
    split at hstep
    · cases hstep
    · rename_i hfree
      rw [Bool.not_eq_true, Option.isSome_eq_false_iff, Option.isNone_iff_eq_none] at hfree
      split at hstep
      · cases hstep
        exact h.enter hfree rfl
      · cases hstep
        exact h.enter hfree rfl
      · cases hstep
        exact h.enter hfree rfl
      · cases hstep
  | scan p =>
    simp only [step, stepScan] at hstep
    split at hstep
    · rename_i hpc
      split at hstep
      · cases hstep
        exact h.leave (by rw [hpc]; rfl) rfl
      · cases hstep
        exact h.stay (p := p) (by rw [hpc]; rfl)
    · rename_i hpc
      split at hstep
      · cases hstep
        exact h.stay (p := p) (by rw [hpc]; rfl)
      · cases hstep
        have hbroadcast : Exclusive { s with pc := fun q => (s.pc q).broadcast } := by
          intro i
          change (s.pc i).broadcast.inside = true ↔ s.mutex = some i
          rw [Pc.broadcast_inside]
          exact h i
        exact hbroadcast.stay (p := p)
          (by rw [Pc.broadcast_inside, hpc]; rfl)
    · cases hstep
  | wake p =>
    simp only [step, stepWake] at hstep
    split at hstep
    · rename_i hpc
      cases hstep
      exact h.stay (by rw [hpc]; rfl)
    · cases hstep
  | leave p =>
    simp only [step, stepLeave] at hstep
    split at hstep
    · rename_i hpc
      cases hstep
      exact h.leave (by rw [hpc]; rfl) rfl
    · rename_i hpc
      cases hstep
      exact h.leave (by rw [hpc]; rfl) rfl
    · cases hstep

/-- The thread whose turn it is. -/
def Action.goesOn : Action ι → Bool
  | .enter _ => true
  | .scan _ => true
  | .leave _ => true
  | _ => false

/-- The thread inside goes on; when there is none, any thread that waits for the mutex does. -/
theorem Exclusive.goes_on (h : Exclusive s) (hpc : s.pc p ≠ .outside)
    (hawake : ∀ r, s.pc p ≠ .asleep r) :
    ∃ a s', a.goesOn = true ∧ step s a = some s' := by
  cases hmutex : s.mutex with
  | some q =>
    have hin := (h q).mpr hmutex
    cases hq : s.pc q with
    | lockScanning r =>
      refine ⟨.scan q, ?_⟩
      simp only [step, stepScan, hq]
      split
      · exact ⟨_, rfl, rfl⟩
      · exact ⟨_, rfl, rfl⟩
    | unlockScanning r =>
      refine ⟨.scan q, ?_⟩
      simp only [step, stepScan, hq]
      split
      · exact ⟨_, rfl, rfl⟩
      · exact ⟨_, rfl, rfl⟩
    | lockLeaving =>
      refine ⟨.leave q, ?_⟩
      simp only [step, stepLeave, hq]
      exact ⟨_, rfl, rfl⟩
    | unlockLeaving c =>
      refine ⟨.leave q, ?_⟩
      simp only [step, stepLeave, hq]
      exact ⟨_, rfl, rfl⟩
    | _ =>
      rw [hq] at hin
      cases hin
  | none =>
    have hout : (s.pc p).inside ≠ true := by
      intro hin
      rw [(h p).mp hin] at hmutex
      cases hmutex
    refine ⟨.enter p, ?_⟩
    simp only [step, stepEnter, hmutex, Option.isSome_none, Bool.false_eq_true, if_false]
    cases hp : s.pc p with
    | outside => exact absurd hp hpc
    | asleep r => exact absurd hp (hawake r)
    | lockEntering r => exact ⟨_, rfl, rfl⟩
    | woken r => exact ⟨_, rfl, rfl⟩
    | unlockEntering r => exact ⟨_, rfl, rfl⟩
    | _ =>
      rw [hp] at hout
      exact absurd rfl hout

end

/-! ## Runs -/

/-- In every run in which the threads unlock only what they hold, the calls take effect one at
a time, in an order that the abstract lock allows and in which every thread's calls stand as it
has made them; what the threads hold is what that order gives. No two threads are between
taking and leaving the mutex, and until all threads are outside or asleep some thread goes on
without being woken. -/
theorem range_locks_linearizable [Fintype ι] [DecidableEq ι] {as : List (Action ι)} {s : State ι}
    (hok : RunOk step UnlocksHeld State.init as) (hrun : run step State.init as = some s) :
    (∃ bs, run atomicStep (fun _ => 0) bs = some s.held ∧
      ∀ p, linearization.calls p (as.filterMap Action.begins) =
        linearization.calls p bs ++ (s.pc p).pending p) ∧
    (∀ p q, (s.pc p).inside = true → (s.pc q).inside = true → p = q) ∧
    ∀ p, s.pc p ≠ .outside → (∀ r, s.pc p ≠ .asleep r) →
      ∃ a s', a.goesOn = true ∧ step s a = some s' := by
  have hexclusive : Exclusive s := by
    refine run_invariant_all (fun s a s' h hstep => exclusive_step h hstep) ?_ hrun
    intro p
    simp [State.init, Pc.inside]
  refine ⟨?_, fun p q hp hq => ?_, fun p hpc hawake => hexclusive.goes_on hpc hawake⟩
  · obtain ⟨bs, hbs, hcalls⟩ := linearization.run_effect
      (fun s a s' h hok hstep => ⟨inv_step s a s' h hok hstep, step_effect h hstep⟩)
      inv_init hok hrun
    exact ⟨bs, hbs, hcalls⟩
  · have hsame := ((hexclusive p).mp hp).symm.trans ((hexclusive q).mp hq)
    exact Option.some.inj hsame

/-- The second request takes effect after the first thread has given the file back. -/
def handOverRun : List (Action Bool) :=
  [.callLock false ⟨0, llongMax⟩, .enter false, .scan false, .callLock true ⟨10, 20⟩,
    .leave false, .enter true, .scan true, .callUnlock false ⟨0, llongMax⟩, .enter false,
    .scan false, .leave false, .enter true, .scan true]

theorem range_locks_linearizable_handOver :
    ∃ s, run step State.init handOverRun = some s ∧ s.held true = {⟨10, 20⟩} ∧
      ∃ bs, run atomicStep (fun _ => 0) bs = some s.held ∧
        ∀ p, linearization.calls p (handOverRun.filterMap Action.begins) =
          linearization.calls p bs ++ (s.pc p).pending p := by
  have hok : RunOk step UnlocksHeld State.init handOverRun := by decide
  exact ⟨_, rfl, by decide, (range_locks_linearizable hok rfl).1⟩

end TokuBackup.RangeThreads
