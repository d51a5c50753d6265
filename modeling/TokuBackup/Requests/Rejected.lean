import TokuBackup.Requests.Model

/-!
# Rejected requests

A call of `do_backup` that does not get `m_mutex` clears the recorded error at its beginning,
and disables capture and copy at its end. When there is nothing to clear and nothing to
disable, the run is the one without the call.
-/

namespace TokuBackup.Requests

open Kernel Lib

section

variable {s s' t : State} {m m' : Manager} {c c' : Caller} {a : Step} {i j : Nat}

/-- The step is one of a call that does not get `m_mutex`. -/
def RejectedStep (m : Manager) : Step → Prop
  | .enter | .checkDead | .clearError | .poll _ | .disableCapture | .disableCopy => True
  | .trylock => m.mutex ≠ none
  | _ => False

/-- There is nothing to clear or to disable. -/
def Harmless (m : Manager) : Step → Prop
  | .clearError => m.shared.anErrorHappened = false
  | .disableCapture => m.shared.captureEnabled = false
  | .disableCopy => m.shared.copyEnabled = false
  | _ => True

/-- A step of the caller `j` is one of a rejected call, and harmless. -/
def Undisturbing (j : Nat) (s : State) : Action → Prop
  | .call i a => i = j → RejectedStep s.manager a ∧ Harmless s.manager a
  | _ => True

/-! ## One step -/

/-- What a step of a rejected call leaves of the shared state. -/
def Shared.disturbed (h : Shared) : Step → Shared
  | .clearError => { h with anErrorHappened := false }
  | .disableCapture => { h with captureEnabled := false }
  | .disableCopy => { h with copyEnabled := false }
  | _ => h

theorem disturbed_eq_iff : m.shared.disturbed a = m.shared ↔ Harmless m a := by
  unfold Shared.disturbed Harmless
  generalize m.shared = h
  obtain ⟨capture, copy, happened, errnum, errstring, session⟩ := h
  cases a with
  | clearError => simp [eq_comm]
  | disableCapture => simp [eq_comm]
  | disableCopy => simp [eq_comm]
  | _ => simp

theorem rejectedStep_manager (ha : RejectedStep m a)
    (hstep : stepCaller m i c a = some (m', c')) :
    m' = { m with shared := m.shared.disturbed a } := by
  have hrequest : stepHolder m c a = none → stepRequest m i c a = some (m', c') := by
    intro hnone
    rw [stepCaller, hnone, Option.or_none] at hstep
    exact hstep
  cases a with
  | enter =>
    have hstep := hrequest rfl
    simp only [stepRequest] at hstep
    split at hstep <;> cases hstep <;> rfl
  | checkDead =>
    have hstep := hrequest rfl
    simp only [stepRequest] at hstep
    split at hstep
    · split at hstep <;> cases hstep <;> rfl
    · cases hstep
  | poll r =>
    have hstep := hrequest rfl
    simp only [stepRequest] at hstep
    split at hstep
    · split at hstep <;> cases hstep <;> rfl
    · cases hstep
  | trylock =>
    have hstep := hrequest rfl
    simp only [stepRequest] at hstep
    split at hstep
    · rw [if_neg ha] at hstep
      cases hstep
      rfl
    · cases hstep
  | clearError | disableCapture | disableCopy =>
    have hstep := hrequest rfl
    simp only [stepRequest] at hstep
    split at hstep
    · cases hstep
      rfl
    · cases hstep
  | _ => exact absurd ha id

/-! ## Runs -/

/-- The states are the same but for the caller `j`. -/
structure Apart (j : Nat) (s t : State) : Prop where
  manager : t.manager = s.manager
  callers : ∀ i, i ≠ j → t.callers i = s.callers i

/-- A harmless step of a rejected call keeps the state apart from the caller. -/
theorem apart_mine (h : Apart j s t) {b : Action} (hb : ∃ a, b = .call j a)
    (hok : Undisturbing j s b) (hstep : step s b = some s') : Apart j s' t := by
  obtain ⟨a, rfl⟩ := hb
  obtain ⟨⟨m', c'⟩, hcall, hs'⟩ := Option.map_eq_some_iff.mp hstep
  obtain ⟨hrejected, hharmless⟩ := hok rfl
  have hm := rejectedStep_manager hrejected hcall
  rw [disturbed_eq_iff.mpr hharmless] at hm
  cases hs'
  refine ⟨?_, fun i hi => ?_⟩
  · rw [hm]
    exact h.manager
  · show t.callers i = Function.update s.callers j c' i
    rw [Function.update_of_ne hi]
    exact h.callers i hi

/-- The step of another thread does not depend on the caller. -/
theorem apart_other (h : Apart j s t) {b : Action} (hb : ∀ a, b ≠ .call j a)
    (hstep : step s b = some s') : ∃ t', step t b = some t' ∧ Apart j s' t' := by
  cases b with
  | call i a =>
    have hi : i ≠ j := fun hij => hb a (by rw [hij])
    obtain ⟨⟨m', c'⟩, hcall, hs'⟩ := Option.map_eq_some_iff.mp hstep
    cases hs'
    refine ⟨⟨m', Function.update t.callers i c'⟩, ?_, rfl, fun k hk => ?_⟩
    · rw [step, h.manager, h.callers i hi, hcall]
      rfl
    · simp only [Function.update_apply, h.callers k hk]
  | operate op =>
    cases hstep
    refine ⟨_, rfl, ?_, fun k hk => h.callers k hk⟩
    simp only [h.manager]
  | applicationError errnum text =>
    cases hstep
    refine ⟨_, rfl, ?_, fun k hk => h.callers k hk⟩
    simp only [h.manager]

def Action.isOf (j : Nat) : Action → Bool
  | .call i _ => i = j
  | _ => false

theorem isOf_iff {b : Action} : b.isOf j = true ↔ ∃ a, b = .call j a := by
  cases b with
  | call i a => simp [Action.isOf]
  | _ => simp [Action.isOf]

/-- A step of a rejected call leaves the flags, the recorded error and the session unchanged
exactly when there is nothing that it clears or disables; and a run in which this holds of
every step of the caller `j` is the run without `j`: the backup copies and captures the same
and returns the same value. -/
theorem rejected_undisturbing (j : Nat) :
    (∀ m i c a m' c', RejectedStep m a → stepCaller m i c a = some (m', c') →
      (m'.shared = m.shared ↔ Harmless m a)) ∧
    ∀ s as t, RunOk step (Undisturbing j) s as → run step s as = some t →
      ∃ t', run step s (as.filter fun b => !b.isOf j) = some t' ∧ t'.manager = t.manager ∧
        ∀ i, i ≠ j → t'.callers i = t.callers i := by
  refine ⟨fun m i c a m' c' ha hstep => ?_, fun s as t hok hrun => ?_⟩
  · rw [rejectedStep_manager ha hstep]
    exact disturbed_eq_iff
  · have hstart : Apart j s s := ⟨rfl, fun _ _ => rfl⟩
    have hmine : ∀ s t b s', Apart j s t → b.isOf j = true → Undisturbing j s b →
        step s b = some s' → Apart j s' t :=
      fun s t b s' h hb hok hstep => apart_mine h (isOf_iff.mp hb) hok hstep
    have hother : ∀ s t b s', Apart j s t → b.isOf j = false → step s b = some s' →
        ∃ t', step t b = some t' ∧ Apart j s' t' := by
      intro s t b s' h hb hstep
      refine apart_other h (fun a ha => ?_) hstep
      rw [isOf_iff.mpr ⟨a, ha⟩] at hb
      cases hb
    obtain ⟨t', ht', hapart⟩ := run_erase hmine hother hstart hok hrun
    exact ⟨t', ht', hapart.manager, hapart.callers⟩

end

/-! ## Runs with two callers -/

instance decidableRejectedStep (m : Manager) (a : Step) : Decidable (RejectedStep m a) := by
  unfold RejectedStep
  cases a <;> infer_instance

instance decidableHarmless (m : Manager) (a : Step) : Decidable (Harmless m a) := by
  unfold Harmless
  cases a <;> infer_instance

instance decidableUndisturbing (j : Nat) (s : State) (b : Action) :
    Decidable (Undisturbing j s b) := by
  unfold Undisturbing
  cases b <;> infer_instance

/-- The first backup of the process has not been asked for yet. -/
def start : State where
  manager := ⟨⟨false, false, false, 0, none, none⟩, false, none, [], [], []⟩
  callers := fun _ => ⟨.idle, []⟩

/-- The caller `i` gets `m_mutex`. -/
def lock (i : Nat) : List Action :=
  [.call i .enter, .call i .checkDead, .call i .clearError, .call i (.poll 0), .call i .trylock]

/-- The caller `i` finds another backup in progress. -/
def rejected (i : Nat) : List Action := lock i ++ [.call i .disableCapture, .call i .disableCopy]

/-- The session begins, with capture and copy enabled. -/
def beginCopy (i : Nat) : List Action :=
  [.call i (.validate 0), .call i (.startSession ⟨[(['/', 's'], ['/', 'd'])], fun _ => false⟩),
    .call i (.prepare 0), .call i .nextDirectory]

/-- The directory has one file; then the backup ends. -/
def copyOneFile (i : Nat) : List Action :=
  [.call i (.copyNext 0), .call i (.list [['/', 'a']]), .call i (.copyNext 0),
    .call i (.copyRange true), .call i (.copyRange false), .call i (.copyNext 0),
    .call i .nextDirectory, .operate (.whenEnabled ['/', 's', '/', 'a']), .call i .endSession,
    .call i .unlock, .call i .leave]

/-- In the first backup, the second request comes while the directories are validated. -/
theorem rejected_undisturbing_whileValidating :
    ∃ t t', run step start (lock 0 ++ rejected 1 ++ beginCopy 0 ++ copyOneFile 0) = some t ∧
      run step start (lock 0 ++ beginCopy 0 ++ copyOneFile 0) = some t' ∧
      t'.manager = t.manager ∧ (t.callers 1).pc = .returned 16 ∧ (t'.callers 0).pc = .returned 0 ∧
      t'.manager.copied = [(['/', 'a'], 0)] := by
  have hok : RunOk step (Undisturbing 1) start
      (lock 0 ++ rejected 1 ++ beginCopy 0 ++ copyOneFile 0) := by decide +kernel
  have hrun : ∃ t, run step start (lock 0 ++ rejected 1 ++ beginCopy 0 ++ copyOneFile 0) = some t ∧
      (t.callers 1).pc = .returned 16 ∧ (t.callers 0).pc = .returned 0 ∧
      t.manager.copied = [(['/', 'a'], 0)] := ⟨_, rfl, rfl, rfl, rfl⟩
  obtain ⟨t, hrun, hrejected, hreturned, hcopied⟩ := hrun
  obtain ⟨t', hrun', hmanager, hcallers⟩ := (rejected_undisturbing 1).2 start _ t hok hrun
  refine ⟨t, t', hrun, hrun', hmanager, hrejected, ?_, ?_⟩
  · rw [hcallers 0 (by decide)]
    exact hreturned
  · rw [hmanager]
    exact hcopied

/-- A second request while a backup copies disables the copy. -/
theorem not_undisturbing_whileCopying :
    ¬ ∀ s₀ as s bs t i j, Initial s₀ → run step s₀ as = some s → s.manager.mutex = some i →
      (∀ b ∈ bs, b.isOf j = true) → run step s bs = some t → (t.callers j).pc = .returned 16 →
      t.manager.shared = s.manager.shared := by
  intro h
  have hinit : Initial start := ⟨fun _ => rfl, rfl, rfl⟩
  have hrun : ∃ s t, run step start (lock 0 ++ beginCopy 0) = some s ∧
      run step s (rejected 1) = some t ∧ s.manager.mutex = some 0 ∧
      s.manager.shared.copyEnabled = true ∧ t.manager.shared.copyEnabled = false ∧
      (t.callers 1).pc = .returned 16 := ⟨_, _, rfl, rfl, rfl, rfl, rfl, rfl⟩
  obtain ⟨s, t, hs, ht, hmutex, hcopy, hcopy', hreturned⟩ := hrun
  have hof : ∀ b ∈ rejected 1, b.isOf 1 = true := by simp [rejected, lock, Action.isOf]
  have hsame := h start _ s _ t 0 1 hinit hs hmutex hof ht hreturned
  rw [hsame, hcopy] at hcopy'
  cases hcopy'

end TokuBackup.Requests
