import TokuBackup.Locking.BackupThread
import TokuBackup.Locking.Calls

/-!
# No deadlock

The machine of all threads, and the result: in no state that a run reaches is there a set of
threads each of which waits for a lock that one of them holds.
-/

namespace TokuBackup.Locking

open Kernel Table Lib Prog
open Interpose (AppCall Op CallM interposed)

/-! ## The threads -/

inductive ThreadId where
  | application (i : Nat)
  | backup
  deriving DecidableEq

structure State where
  /-- What is left of the call of an application thread. -/
  app : Nat → CallM Int
  /-- What is left of `do_backup`. -/
  backup : BackupM Int
  /-- What a thread has still to do with locks, before its program goes on. -/
  pending : ThreadId → List (LockEvent HeldLock)
  /-- The locks that are held, with their owners. -/
  locks : List (ThreadId × HeldLock)

inductive Action where
  /-- Application thread `i` enters an interposed call. -/
  | enter (i : Nat) (c : AppCall)
  | enterBackup (rounds : Nat)
  /-- The next operation of an application thread, with its answer. -/
  | perform (i : Nat) (e : Sigma Op.Answer)
  | performBackup (e : Sigma BackupOp.Answer)
  /-- The thread takes the lock that it waits for, or gives one back. -/
  | advance (t : ThreadId)

def State.initial : State := ⟨fun _ => pure 0, pure 0, fun _ => [], []⟩

def State.held (s : State) (t : ThreadId) : List HeldLock := heldBy s.locks t

/-- The lock that the next step of the thread takes. -/
def State.wanted (s : State) (t : ThreadId) : Option HeldLock :=
  (s.pending t).head?.bind LockEvent.wanted

/-- No lock that is held keeps out `l`. -/
def State.free (s : State) (l : HeldLock) : Bool := s.locks.all fun o => !o.2.blocks l

def step (s : State) : Action → Option State
  | .enter i c =>
    match s.app i, s.pending (.application i) with
    | .done _, [] => some { s with app := Function.update s.app i (interposed c) }
    | _, _ => none
  | .enterBackup rounds =>
    match s.backup, s.pending .backup with
    | .done _, [] => some { s with backup := doBackup rounds }
    | _, _ => none
  | .perform i ⟨o', r⟩ =>
    match s.app i, s.pending (.application i) with
    | .step o k, [] =>
      if h : o' = o then
        some { s with
          app := Function.update s.app i (k (h ▸ r))
          pending := Function.update s.pending (.application i) (lockEvents o) }
      else none
    | _, _ => none
  | .performBackup ⟨o', r⟩ =>
    match s.backup, s.pending .backup with
    | .step o k, [] =>
      if h : o' = o then
        some { s with
          backup := k (h ▸ r)
          pending := Function.update s.pending .backup (backupLockEvents o) }
      else none
    | _, _ => none
  | .advance t =>
    match s.pending t with
    | [] => none
    | e :: es =>
      if e.wanted.all s.free then
        some { s with pending := Function.update s.pending t es, locks := e.record t s.locks }
      else none

/-! ## Every thread takes its locks in order -/

structure Good (s : State) : Prop where
  app : ∀ i, Disciplined order lockEvents (s.app i) (s.pending (.application i))
    (s.held (.application i))
  backup : Disciplined order backupLockEvents s.backup (s.pending .backup) (s.held .backup)

theorem good_initial : Good State.initial :=
  ⟨fun _ => disciplined_start (brief_pure (b := 0) 0), disciplined_start (brief_pure (b := 0) 0)⟩

section

variable {s s' : State}

theorem step_enter {i : Nat} {c : AppCall} (hstep : step s (.enter i c) = some s') :
    ∃ r, s.app i = pure r ∧ s.pending (.application i) = [] ∧
      s' = { s with app := Function.update s.app i (interposed c) } := by
  simp only [step] at hstep
  split at hstep
  · rename_i r hprog hpending
    exact ⟨r, hprog, hpending, (Option.some.inj hstep).symm⟩
  · cases hstep

theorem step_enterBackup {rounds : Nat} (hstep : step s (.enterBackup rounds) = some s') :
    ∃ r, s.backup = pure r ∧ s.pending .backup = [] ∧
      s' = { s with backup := doBackup rounds } := by
  simp only [step] at hstep
  split at hstep
  · rename_i r hprog hpending
    exact ⟨r, hprog, hpending, (Option.some.inj hstep).symm⟩
  · cases hstep

theorem step_perform {i : Nat} {o : Op} {r : o.Answer}
    (hstep : step s (.perform i ⟨o, r⟩) = some s') :
    ∃ k, s.app i = .step o k ∧ s.pending (.application i) = [] ∧
      s' = { s with
        app := Function.update s.app i (k r)
        pending := Function.update s.pending (.application i) (lockEvents o) } := by
  simp only [step] at hstep
  split at hstep
  · rename_i o' k hprog hpending
    split at hstep
    · rename_i h
      subst h
      exact ⟨k, hprog, hpending, (Option.some.inj hstep).symm⟩
    · cases hstep
  · cases hstep

theorem step_performBackup {o : BackupOp} {r : o.Answer}
    (hstep : step s (.performBackup ⟨o, r⟩) = some s') :
    ∃ k, s.backup = .step o k ∧ s.pending .backup = [] ∧
      s' = { s with
        backup := k r
        pending := Function.update s.pending .backup (backupLockEvents o) } := by
  simp only [step] at hstep
  split at hstep
  · rename_i o' k hprog hpending
    split at hstep
    · rename_i h
      subst h
      exact ⟨k, hprog, hpending, (Option.some.inj hstep).symm⟩
    · cases hstep
  · cases hstep

theorem step_advance {t : ThreadId} (hstep : step s (.advance t) = some s') :
    ∃ e es, s.pending t = e :: es ∧ s' = { s with
      pending := Function.update s.pending t es, locks := e.record t s.locks } := by
  simp only [step] at hstep
  split at hstep
  · cases hstep
  · rename_i e es hpending
    exact ⟨e, es, hpending, (Option.some.inj (Option.ite_none_right_eq_some.mp hstep).2).symm⟩

theorem good_perform {i : Nat} {o : Op} {r : o.Answer} {k : o.Answer → CallM Int} (hgood : Good s)
    (hprog : s.app i = .step o k) (hpending : s.pending (.application i) = []) :
    Good { s with
      app := Function.update s.app i (k r)
      pending := Function.update s.pending (.application i) (lockEvents o) } := by
  refine ⟨fun j => ?_, ?_⟩
  · by_cases hj : j = i
    · subst hj
      have hbefore := hgood.app j
      rw [hprog, hpending] at hbefore
      simpa [State.held] using hbefore.perform r
    · have hne : ThreadId.application j ≠ .application i := by
        intro h
        exact hj (ThreadId.application.inj h)
      simpa [State.held, hj, hne] using hgood.app j
  · simpa [State.held] using hgood.backup

theorem good_advance {t : ThreadId} {e : LockEvent HeldLock} {es : List (LockEvent HeldLock)}
    (hgood : Good s) (hpending : s.pending t = e :: es) :
    Good { s with pending := Function.update s.pending t es, locks := e.record t s.locks } := by
  refine ⟨fun i => ?_, ?_⟩
  · have hbefore := hgood.app i
    by_cases hi : ThreadId.application i = t
    · subst hi
      rw [hpending] at hbefore
      simpa [State.held, heldBy_record] using hbefore.advance
    · simpa [State.held, heldBy_record, hi] using hbefore
  · have hbefore := hgood.backup
    by_cases hb : ThreadId.backup = t
    · subst hb
      rw [hpending] at hbefore
      simpa [State.held, heldBy_record] using hbefore.advance
    · simpa [State.held, heldBy_record, hb] using hbefore

theorem good_step {a : Action} (hgood : Good s) (hstep : step s a = some s') : Good s' := by
  cases a with
  | enter i c =>
    obtain ⟨r, hprog, hpending, rfl⟩ := step_enter hstep
    refine ⟨fun j => ?_, hgood.backup⟩
    by_cases hj : j = i
    · subst hj
      have hbefore := hgood.app j
      rw [hprog, hpending] at hbefore
      have hnone : heldBy s.locks (.application j) = [] := hbefore.returned
      have hstart := disciplined_start (short_interposed c)
      simpa [hpending, State.held, hnone] using hstart
    · simpa [State.held, hj] using hgood.app j
  | enterBackup rounds =>
    obtain ⟨r, hprog, hpending, rfl⟩ := step_enterBackup hstep
    refine ⟨hgood.app, ?_⟩
    have hbefore := hgood.backup
    rw [hprog, hpending] at hbefore
    have hnone : heldBy s.locks .backup = [] := hbefore.returned
    have hstart := disciplined_start (short_doBackup rounds)
    simpa [hpending, State.held, hnone] using hstart
  | perform i e =>
    obtain ⟨k, hprog, hpending, rfl⟩ := step_perform hstep
    exact good_perform hgood hprog hpending
  | performBackup e =>
    obtain ⟨k, hprog, hpending, rfl⟩ := step_performBackup hstep
    refine ⟨fun i => by simpa [State.held] using hgood.app i, ?_⟩
    have hbefore := hgood.backup
    rw [hprog, hpending] at hbefore
    simpa [State.held] using hbefore.perform e.2
  | advance t =>
    obtain ⟨e, es, hpending, rfl⟩ := step_advance hstep
    exact good_advance hgood hpending

theorem Good.below {t : ThreadId} {l : HeldLock} (hgood : Good s) (hl : s.wanted t = some l) :
    order.Below l (s.held t) := by
  cases t with
  | application i => exact (hgood.app i).below hl
  | backup => exact hgood.backup.below hl

end

/-- No run of the threads reaches a deadlock. -/
theorem calls_never_deadlock {as : List Action} {s : State}
    (hrun : run step State.initial as = some s) (D : Set ThreadId) :
    ¬ order.Deadlocked s.held s.wanted D := by
  have hgood : Good s := run_invariant_all (fun _ _ _ => good_step) good_initial hrun
  exact order.no_deadlock (fun _ _ => hgood.below) D

/-- Thread `i` enters `lseek` on fd 3 and comes to the lock of the description. -/
def lseekToLock (i : Nat) : List Action :=
  [.enter i (.lseek 3 0 0), .perform i ⟨.isAlive, true⟩, .perform i ⟨.mapGet 3, some 0⟩,
    .advance (.application i), .advance (.application i), .perform i ⟨.lock (.description 3), ()⟩]

/-- One thread has the description, and another waits for it. -/
def lseekTwice : List Action := lseekToLock 0 ++ .advance (.application 0) :: lseekToLock 1

theorem calls_never_deadlock_lseek :
    ∃ s, run step State.initial lseekTwice = some s ∧
      s.held (.application 0) = [.description 3] ∧
      s.wanted (.application 1) = some (.description 3) ∧
      ∀ D, ¬ order.Deadlocked s.held s.wanted D :=
  ⟨_, rfl, rfl, rfl, @calls_never_deadlock lseekTwice _ rfl⟩

end TokuBackup.Locking
