import TokuBackup.Locking.Deadlock

/-!
# What a thread waits for

The locks do what they are for, in every run of all threads: two locks that exclude each other
are not held at once, and a thread between two calls holds none. So a thread waits only for
threads that are in a call, and behind every wait there is a thread that can go on, unless the
process has ended.
-/

namespace TokuBackup.Locking

open Lib

/-! ## Threads in a call -/

/-- The thread is between two calls. -/
def State.Idle (s : State) : ThreadId → Prop
  | .application i => s.pending (.application i) = [] ∧ ∃ r, s.app i = .done r
  | .backup => s.pending .backup = [] ∧ ∃ r, s.backup = .done r

/-- The thread's call has ended the process. -/
def State.Faulted (s : State) : ThreadId → Prop
  | .application i => s.pending (.application i) = [] ∧ ∃ e, s.app i = .fail e
  | .backup => s.pending .backup = [] ∧ ∃ e, s.backup = .fail e

/-- The thread's next operation is possible, whatever its answer is. -/
def State.Performs (s : State) : ThreadId → Prop
  | .application i => ∃ o k, s.app i = .step o k ∧ ∀ r, ∃ s', step s (.perform i ⟨o, r⟩) = some s'
  | .backup => ∃ o k, s.backup = .step o k ∧ ∀ r, ∃ s', step s (.performBackup ⟨o, r⟩) = some s'

/-- The thread can go on with its call. -/
def State.Ready (s : State) (t : ThreadId) : Prop :=
  (∃ s', step s (.advance t) = some s') ∨ s.Performs t

abbrev State.WaitsFor (s : State) : ThreadId → ThreadId → Prop := order.WaitsFor s.held s.wanted

section

variable {s s' : State} {t t' : ThreadId}

/-- A thread that neither can go on nor waits is between two calls, or has ended the process. -/
theorem ready_of_not_waiting (hwaits : ∀ u, ¬ s.WaitsFor t u) :
    s.Idle t ∨ s.Faulted t ∨ s.Ready t := by
  cases hpending : s.pending t with
  | cons e es =>
    refine Or.inr (Or.inr (Or.inl ?_))
    -- whoever kept the lock from the thread would be waited for
    have hfree : e.wanted.all s.free = true := by
      cases hwanted : e.wanted with
      | none => rfl
      | some l =>
        rw [Option.all_some, State.free, List.all_eq_true]
        intro o ho
        rw [Bool.not_eq_true', Bool.eq_false_iff]
        intro hblocks
        have hl : s.wanted t = some l := by
          rw [State.wanted, hpending, List.head?_cons, Option.bind_some]
          exact hwanted
        exact hwaits o.1 ⟨l, hl, o.2, mem_heldBy.mpr ho, hblocks⟩
    refine ⟨{ s with pending := Function.update s.pending t es, locks := e.record t s.locks }, ?_⟩
    simp only [step, hpending]
    exact if_pos hfree
  | nil =>
    cases t with
    | application i =>
      cases hprog : s.app i with
      | done r => exact Or.inl ⟨hpending, r, hprog⟩
      | fail e => exact Or.inr (Or.inl ⟨hpending, e, hprog⟩)
      | step o k =>
        refine Or.inr (Or.inr (Or.inr ⟨o, k, hprog, fun r => ?_⟩))
        simp only [step, hprog, hpending]
        exact ⟨_, dif_pos trivial⟩
    | backup =>
      cases hprog : s.backup with
      | done r => exact Or.inl ⟨hpending, r, hprog⟩
      | fail e => exact Or.inr (Or.inl ⟨hpending, e, hprog⟩)
      | step o k =>
        refine Or.inr (Or.inr (Or.inr ⟨o, k, hprog, fun r => ?_⟩))
        simp only [step, hprog, hpending]
        exact ⟨_, dif_pos trivial⟩

/-- A thread gives its locks back before its call returns. -/
theorem Good.idle (hgood : Good s) (hidle : s.Idle t) : s.held t = [] := by
  cases t with
  | application i =>
    obtain ⟨hpending, r, hprog⟩ := hidle
    have hthread := hgood.app i
    rw [hprog, hpending] at hthread
    exact hthread.returned
  | backup =>
    obtain ⟨hpending, r, hprog⟩ := hidle
    have hthread := hgood.backup
    rw [hprog, hpending] at hthread
    exact hthread.returned

theorem Good.not_idle_of_waitsFor (hgood : Good s) (h : s.WaitsFor t t') : ¬ s.Idle t' := by
  intro hidle
  obtain ⟨l, -, k, hk, -⟩ := h
  rw [hgood.idle hidle] at hk
  cases hk

/-- Behind every thread in a call there is one that can go on or has ended the process. -/
theorem Good.exists_ready (hgood : Good s) (ht : ¬ s.Idle t) :
    ∃ t', Relation.ReflTransGen s.WaitsFor t t' ∧ ¬ s.Idle t' ∧ (s.Faulted t' ∨ s.Ready t') := by
  have hbelow : ∀ t l, s.wanted t = some l → order.Below l (s.held t) := fun _ _ => hgood.below
  obtain ⟨t', hreach, hend⟩ := order.waits_end hbelow t
  have hbusy : ¬ s.Idle t' := by
    obtain rfl | ⟨u, -, hlast⟩ := Relation.ReflTransGen.cases_tail hreach
    · exact ht
    · exact hgood.not_idle_of_waitsFor hlast
  exact ⟨t', hreach, hbusy, (ready_of_not_waiting hend).resolve_left hbusy⟩

/-! ## Exclusion -/

theorem rangesIntersect_comm (lo hi lo' hi' : Nat) :
    rangesIntersect lo hi lo' hi' = rangesIntersect lo' hi' lo hi := by
  rw [Bool.eq_iff_iff, rangesIntersect_iff, rangesIntersect_iff]
  exact exists_congr fun i => and_comm

theorem HeldLock.blocks_comm (l l' : HeldLock) : l.blocks l' = l'.blocks l := by
  cases l <;> cases l' <;> simp only [HeldLock.blocks, Bool.beq_comm]
  exact congrArg _ (rangesIntersect_comm _ _ _ _)

/-- No two of the locks exclude each other. -/
def Exclusive (locks : List (ThreadId × HeldLock)) : Prop :=
  locks.Pairwise fun o o' => o.2.blocks o'.2 = false

theorem exclusive_step {a : Action} (h : Exclusive s.locks) (hstep : step s a = some s') :
    Exclusive s'.locks := by
  cases a with
  | enter i c =>
    obtain ⟨r, -, -, rfl⟩ := step_enter hstep
    exact h
  | enterBackup rounds =>
    obtain ⟨r, -, -, rfl⟩ := step_enterBackup hstep
    exact h
  | perform i e =>
    obtain ⟨k, -, -, rfl⟩ := step_perform hstep
    exact h
  | performBackup e =>
    obtain ⟨k, -, -, rfl⟩ := step_performBackup hstep
    exact h
  | advance t =>
    simp only [step] at hstep
    split at hstep
    · cases hstep
    · rename_i e es hpending
      obtain ⟨hfree, hs⟩ := Option.ite_none_right_eq_some.mp hstep
      rw [← Option.some.inj hs]
      cases e with
      | acquire l =>
        refine List.pairwise_cons.mpr ⟨fun o ho => ?_, h⟩
        have hkept := List.all_eq_true.mp hfree o ho
        rw [Bool.not_eq_true'] at hkept
        rw [HeldLock.blocks_comm]
        exact hkept
      | release l => exact h.sublist List.erase_sublist

end

/-! ## The main result -/

/-- In every run of the threads, locks that exclude each other are not held at once, a thread
between two calls holds none, and every wait leads to a thread in a call that can go on, unless
the process has ended. -/
theorem locks_exclude_and_release {as : List Action} {s : State}
    (hrun : run step State.initial as = some s) :
    Exclusive s.locks ∧ (∀ t, s.Idle t → s.held t = []) ∧
      ∀ t, ¬ s.Idle t → ∃ t', Relation.ReflTransGen s.WaitsFor t t' ∧ ¬ s.Idle t' ∧
        (s.Faulted t' ∨ s.Ready t') := by
  have hgood : Good s := run_invariant_all (fun _ _ _ => good_step) good_initial hrun
  have hstep : ∀ s a s', Exclusive s.locks → step s a = some s' → Exclusive s'.locks :=
    fun _ _ _ => exclusive_step
  have hinitial : Exclusive State.initial.locks := List.Pairwise.nil
  have hexclusive : Exclusive s.locks := run_invariant_all hstep hinitial hrun
  exact ⟨hexclusive, fun t => hgood.idle, fun t => hgood.exists_ready⟩

/-- One thread waits for the description that another one has. -/
theorem locks_exclude_and_release_lseek :
    ∃ s, run step State.initial lseekTwice = some s ∧
      s.WaitsFor (.application 1) (.application 0) ∧ Exclusive s.locks ∧
      (∀ t, s.Idle t → s.held t = []) ∧
      ∀ t, ¬ s.Idle t → ∃ t', Relation.ReflTransGen s.WaitsFor t t' ∧ ¬ s.Idle t' ∧
        (s.Faulted t' ∨ s.Ready t') :=
  ⟨_, rfl, ⟨.description 3, rfl, .description 3, List.mem_cons_self, rfl⟩,
    @locks_exclude_and_release lseekTwice _ rfl⟩

end TokuBackup.Locking
