import TokuBackup.Throttle.Model
import Mathlib.Tactic.Linarith
import Mathlib.Tactic.FieldSimp

/-!
# The copier keeps to the throttle

After every chunk the copier waits until the bytes of the file fit the time since its first
chunk. So the bytes of a file that is done fit the time it took, and at any moment at most one
chunk is ahead of the clock: in a whole session, over all files and directories.

While it waits the copier polls before every sleep, asks for a second at the most, and for no
more than was left of the budget when it read the clock.
-/

namespace TokuBackup.Throttle

open Kernel Lib
open Progress (Copying SourceTree)

variable {D : DirectorySet} {tree : Path → SourceTree}

/-! ## The machine of the copier -/

/-- Inside `possibly_sleep_or_abort` the copier only fails. -/
theorem stepCopy_cases {s s' : State} {a : Progress.Action}
    (hstep : stepCopy D tree s a = some s') :
    ∃ copy, Progress.step D tree s.copy a = some copy ∧
      (a = .next → ∀ c, s.copy.pc ≠ .throttle c) ∧ s' = { account s a with copy := copy } := by
  simp only [stepCopy] at hstep
  split at hstep
  · obtain ⟨hfail, hstep⟩ := Option.ite_none_right_eq_some.mp hstep
    obtain ⟨copy, hcopy, rfl⟩ := Option.map_eq_some_iff.mp hstep
    refine ⟨copy, hcopy, fun ha => ?_, rfl⟩
    subst ha
    cases hfail
  · rename_i hpc
    obtain ⟨copy, hcopy, rfl⟩ := Option.map_eq_some_iff.mp hstep
    exact ⟨copy, hcopy, (fun _ => hpc), rfl⟩

theorem step_project {s s' : State} {a : Action} (hstep : step D tree s a = some s') :
    s'.copy = s.copy ∨ ∃ b, Progress.step D tree s.copy b = some s'.copy := by
  cases a with
  | tick seconds =>
    rw [step, Option.ite_none_right_eq_some] at hstep
    rw [← Option.some.inj hstep.2]
    exact Or.inl rfl
  | setThrottle bytes_per_second =>
    rw [← Option.some.inj hstep]
    exact Or.inl rfl
  | copy b =>
    obtain ⟨copy, hcopy, -, rfl⟩ := stepCopy_cases hstep
    exact Or.inr ⟨b, hcopy⟩
  | check =>
    simp only [step, stepCheck] at hstep
    split at hstep
    · split at hstep
      · obtain ⟨copy, hcopy, rfl⟩ := Option.map_eq_some_iff.mp hstep
        exact Or.inr ⟨_, hcopy⟩
      · rw [← Option.some.inj hstep]
        exact Or.inl rfl
    · cases hstep
  | poll r =>
    simp only [step, stepPoll] at hstep
    split at hstep
    · obtain ⟨copy, hcopy, rfl⟩ := Option.map_eq_some_iff.mp hstep
      exact Or.inr ⟨_, hcopy⟩
    · cases hstep
  | sleep =>
    simp only [step, stepSleep] at hstep
    split at hstep
    · rw [← Option.some.inj hstep]
      exact Or.inl rfl
    · cases hstep

/-! ## The rate -/

theorem budgetedTime_le {total throttle : Nat} {actual : ℚ}
    (h : budgetedTime total throttle ≤ actual) : (total : ℚ) ≤ throttle * actual := by
  rw [budgetedTime] at h
  split at h
  · exact absurd h (by simp)
  · rename_i hne
    have hpos : (0 : ℚ) < throttle := by exact_mod_cast Nat.pos_of_ne_zero hne
    have hle : (total : ℚ) / throttle ≤ actual := WithTop.coe_le_coe.mp h
    rwa [div_le_iff₀ hpos, mul_comm] at hle

/-- The bytes of the files before the one that is copied. -/
def State.before (s : State) : ℚ := s.copy.totalBytesBackedUp - s.totalWrittenThisFile

/-- How far the bytes may be ahead of the clock, by where the copier is: `rate` is in bytes per
second, and the session has begun at `t₀`. -/
def Ahead (rate : Nat) (t₀ : ℚ) (s : State) : Progress.Pc → Prop
  | .reading _ => s.before ≤ rate * (s.starttime - t₀) ∧
      s.totalWrittenThisFile ≤ rate * (s.clock - s.starttime)
  | .range _ n_read n_wrote => s.before ≤ rate * (s.starttime - t₀) ∧
      n_wrote ≤ n_read ∧ n_read ≤ Convergence.bufSize ∧
      s.totalWrittenThisFile ≤ rate * (s.clock - s.starttime) + n_wrote
  | .write _ n_read n_wrote => s.before ≤ rate * (s.starttime - t₀) ∧
      n_wrote ≤ n_read ∧ n_read ≤ Convergence.bufSize ∧
      s.totalWrittenThisFile ≤ rate * (s.clock - s.starttime) + n_wrote
  | .throttle _ => s.before ≤ rate * (s.starttime - t₀) ∧
      s.totalWrittenThisFile ≤ rate * (s.clock - s.starttime) + Convergence.bufSize
  | .failed => s.copy.totalBytesBackedUp ≤ rate * (s.clock - t₀) + Convergence.bufSize
  | _ => s.copy.totalBytesBackedUp ≤ rate * (s.clock - t₀)

structure Inv (rate : Nat) (t₀ : ℚ) (s : State) : Prop where
  throttle : s.throttle ≤ rate
  begun : t₀ ≤ s.starttime
  started : s.starttime ≤ s.clock
  ahead : Ahead rate t₀ s s.copy.pc

theorem inv_start (uninitialized : Nat) (clock : ℚ) {throttle rate : Nat}
    (h : throttle ≤ rate) : Inv rate clock (start uninitialized clock throttle) := by
  refine ⟨h, le_refl _, le_refl _, ?_⟩
  simp [start, Progress.start, Ahead]

variable {rate : Nat} {t₀ : ℚ} {s s' : State}

/-- Wherever the copier is, it is a chunk ahead at the most. -/
theorem Inv.total (h : Inv rate t₀ s) :
    (s.copy.totalBytesBackedUp : ℚ) ≤ rate * (s.clock - t₀) + Convergence.bufSize := by
  have hahead := h.ahead
  have hbuf : (0 : ℚ) ≤ Convergence.bufSize := Nat.cast_nonneg _
  have hsplit : (rate : ℚ) * (s.clock - t₀) =
      rate * (s.starttime - t₀) + rate * (s.clock - s.starttime) := by ring
  cases hpc : s.copy.pc with
  | reading c =>
    rw [hpc] at hahead
    obtain ⟨hbefore, hthis⟩ := hahead
    rw [State.before] at hbefore
    linarith
  | range c n_read n_wrote =>
    rw [hpc] at hahead
    obtain ⟨hbefore, hle, hread, hthis⟩ := hahead
    rw [State.before] at hbefore
    have hwrote : (n_wrote : ℚ) ≤ Convergence.bufSize := by exact_mod_cast hle.trans hread
    linarith
  | write c n_read n_wrote =>
    rw [hpc] at hahead
    obtain ⟨hbefore, hle, hread, hthis⟩ := hahead
    rw [State.before] at hbefore
    have hwrote : (n_wrote : ℚ) ≤ Convergence.bufSize := by exact_mod_cast hle.trans hread
    linarith
  | throttle c =>
    rw [hpc] at hahead
    obtain ⟨hbefore, hthis⟩ := hahead
    rw [State.before] at hbefore
    linarith
  | failed =>
    rw [hpc] at hahead
    exact hahead
  | _ =>
    rw [hpc] at hahead
    have hle : (s.copy.totalBytesBackedUp : ℚ) ≤ rate * (s.clock - t₀) := hahead
    linarith

/-- Time goes by. -/
theorem Inv.tick (h : Inv rate t₀ s) {seconds : ℚ} (hseconds : 0 ≤ seconds) :
    Inv rate t₀ { s with clock := s.clock + seconds } := by
  have hmore : (0 : ℚ) ≤ rate * seconds := mul_nonneg (Nat.cast_nonneg _) hseconds
  have hstarted := h.started
  have hahead := h.ahead
  refine ⟨h.throttle, h.begun, by dsimp only; linarith, ?_⟩
  cases hpc : s.copy.pc with
  | reading c =>
    rw [hpc] at hahead
    exact ⟨hahead.1, by dsimp only; linarith [hahead.2]⟩
  | range c n_read n_wrote =>
    rw [hpc] at hahead
    exact ⟨hahead.1, hahead.2.1, hahead.2.2.1, by dsimp only; linarith [hahead.2.2.2]⟩
  | write c n_read n_wrote =>
    rw [hpc] at hahead
    exact ⟨hahead.1, hahead.2.1, hahead.2.2.1, by dsimp only; linarith [hahead.2.2.2]⟩
  | throttle c =>
    rw [hpc] at hahead
    exact ⟨hahead.1, by dsimp only; linarith [hahead.2]⟩
  | failed =>
    rw [hpc] at hahead
    have hle : (s.copy.totalBytesBackedUp : ℚ) ≤ rate * (s.clock - t₀) + Convergence.bufSize :=
      hahead
    simp only [Ahead]
    linarith
  | _ =>
    rw [hpc] at hahead
    have hle : (s.copy.totalBytesBackedUp : ℚ) ≤ rate * (s.clock - t₀) := hahead
    simp only [Ahead]
    linarith

/-! ### The steps of the copier -/

/-- Between two files the bytes of all files count. -/
theorem Inv.idle (h : Inv rate t₀ s)
    (hpc : s.copy.pc = .next ∨ s.copy.pc = .loop ∨ s.copy.pc = .pop ∨ s.copy.pc = .returned) :
    (s.copy.totalBytesBackedUp : ℚ) ≤ rate * (s.clock - t₀) := by
  have hahead := h.ahead
  rcases hpc with hpc | hpc | hpc | hpc
  all_goals
    rw [hpc] at hahead
    exact hahead

/-- A step that leaves the clock and the bytes alone. -/
theorem Inv.goto (h : Inv rate t₀ s) {copy : Progress.State}
    (hahead : Ahead rate t₀ { s with copy := copy } copy.pc) :
    Inv rate t₀ { s with copy := copy } :=
  ⟨h.throttle, h.begun, h.started, hahead⟩

theorem Inv.failed (h : Inv rate t₀ s) {copy : Progress.State}
    (hbytes : copy.totalBytesBackedUp = s.copy.totalBytesBackedUp) (hpc : copy.pc = .failed) :
    Inv rate t₀ { s with copy := copy } := by
  apply h.goto
  rw [hpc]
  have htotal := h.total
  rw [← hbytes] at htotal
  exact htotal

theorem inv_next (h : Inv rate t₀ s) (hthrottle : ∀ c, s.copy.pc ≠ .throttle c)
    {copy : Progress.State} (hstep : Progress.step D tree s.copy .next = some copy) :
    Inv rate t₀ { s with copy := copy } := by
  simp only [Progress.step, Progress.stepNext] at hstep
  split at hstep
  · rename_i hpc
    have hidle := h.idle (Or.inl hpc)
    split at hstep
    · cases hstep
      exact h.goto hidle
    · cases hstep
      exact h.goto hidle
  · rename_i hpc
    have hidle := h.idle (Or.inr (Or.inl hpc))
    split at hstep
    · cases hstep
      exact h.goto hidle
    · cases hstep
  · rename_i c hpc
    exact absurd hpc (hthrottle c)
  · cases hstep

theorem inv_poll (h : Inv rate t₀ s) {r : Int} {copy : Progress.State}
    (hstep : Progress.step D tree s.copy (.poll r) = some copy) :
    Inv rate t₀ { s with copy := copy } := by
  have hahead := h.ahead
  simp only [Progress.step, Progress.stepPoll] at hstep
  split at hstep
  · rename_i hpc
    split at hstep
    · cases hstep
    · cases hstep
      split
      · exact h.goto (h.idle (Or.inr (Or.inl hpc)))
      · exact h.failed rfl rfl
  · rename_i c n_read n_wrote hpc
    rw [hpc] at hahead
    cases hstep
    split
    · exact h.goto hahead
    · exact h.failed rfl rfl
  · rename_i c hpc
    rw [hpc] at hahead
    cases hstep
    split
    · exact h.goto hahead
    · exact h.failed rfl rfl
  · cases hstep

/-- What handling an entry leads to. -/
theorem stepPop_cases {s s' : Progress.State} {entries : List Path}
    (hstep : Progress.stepPop D tree s entries = some s') :
    s.pc = .pop ∧ s'.totalBytesBackedUp = s.totalBytesBackedUp ∧
      (s'.pc = .loop ∨ ∃ c, s'.pc = .reading c) := by
  have hfull : ∀ (t : Progress.State) (T : Progress.Tree) (source file : Path),
      t.totalBytesBackedUp = s.totalBytesBackedUp →
      Progress.copyFullPath D t T source file entries = some s' →
      s'.totalBytesBackedUp = s.totalBytesBackedUp ∧
        (s'.pc = .loop ∨ ∃ c, s'.pc = .reading c) := by
    intro t T source file hbytes hfull
    rw [Progress.copyFullPath] at hfull
    split at hfull
    · cases hfull
      exact ⟨hbytes, Or.inl rfl⟩
    · split at hfull
      · cases hfull
        exact ⟨hbytes, Or.inl rfl⟩
      · cases hfull
        exact ⟨hbytes, Or.inr ⟨_, rfl⟩⟩
      · cases hfull
        exact ⟨hbytes, Or.inl rfl⟩
      · obtain ⟨-, heq⟩ := Option.ite_none_right_eq_some.mp hfull
        cases heq
        exact ⟨hbytes, Or.inl rfl⟩
  unfold Progress.stepPop at hstep
  split at hstep
  · rename_i hpc _ _
    refine ⟨hpc, ?_⟩
    rw [Progress.copyStrippedFile] at hstep
    split at hstep
    · apply hfull _ _ _ _ _ hstep
      rfl
    · apply hfull _ _ _ _ _ hstep
      rfl
  · cases hstep

/-- A new file begins, or the entry is no file. -/
theorem inv_pop (h : Inv rate t₀ s) {entries : List Path} {copy : Progress.State}
    (hstep : Progress.step D tree s.copy (.pop entries) = some copy) :
    Inv rate t₀ { s with starttime := s.clock, totalWrittenThisFile := 0, copy := copy } := by
  obtain ⟨hpc, hbytes, hafter⟩ := stepPop_cases hstep
  have hidle := h.idle (Or.inr (Or.inr (Or.inl hpc)))
  refine ⟨h.throttle, h.begun.trans h.started, le_refl _, ?_⟩
  rcases hafter with hloop | ⟨c, hreading⟩
  · rw [hloop]
    simp only [Ahead, hbytes]
    exact hidle
  · rw [hreading]
    simp only [Ahead, State.before, hbytes, Nat.cast_zero, sub_zero, sub_self, mul_zero, le_refl,
      and_true]
    exact hidle

theorem inv_read (h : Inv rate t₀ s) {n : Nat} {copy : Progress.State}
    (hstep : Progress.step D tree s.copy (.read n) = some copy) :
    Inv rate t₀ { s with copy := copy } := by
  have hahead := h.ahead
  simp only [Progress.step, Progress.stepRead] at hstep
  split at hstep
  · rename_i c hpc
    rw [hpc] at hahead
    obtain ⟨hbefore, hthis⟩ := hahead
    obtain ⟨hn, hstep⟩ := Option.ite_none_right_eq_some.mp hstep
    split at hstep
    · cases hstep
      apply h.goto
      rw [State.before] at hbefore
      simp only [Ahead]
      linarith
    · cases hstep
      apply h.goto
      refine ⟨hbefore, Nat.zero_le _, hn.1, ?_⟩
      rw [Nat.cast_zero, add_zero]
      exact hthis
  · cases hstep

theorem inv_write (h : Inv rate t₀ s) {n : Nat} {wait : Wait} {copy : Progress.State}
    (hstep : Progress.step D tree s.copy (.write n) = some copy) :
    Inv rate t₀ { s with
      totalWrittenThisFile := s.totalWrittenThisFile + n, wait := wait, copy := copy } := by
  have hahead := h.ahead
  simp only [Progress.step, Progress.stepWrite] at hstep
  split at hstep
  · rename_i c n_read n_wrote hpc
    rw [hpc] at hahead
    obtain ⟨hbefore, -, hread, hthis⟩ := hahead
    obtain ⟨hn, hstep⟩ := Option.ite_none_right_eq_some.mp hstep
    cases hstep
    refine ⟨h.throttle, h.begun, h.started, ?_⟩
    rw [State.before] at hbefore
    dsimp only
    split
    · refine ⟨?_, hn, hread, ?_⟩
      · simp only [State.before]
        push_cast
        linarith
      · push_cast
        linarith
    · refine ⟨?_, ?_⟩
      · simp only [State.before]
        push_cast
        linarith
      · have hchunk : ((n_wrote + n : Nat) : ℚ) ≤ Convergence.bufSize := by
          exact_mod_cast hn.trans hread
        push_cast at hchunk ⊢
        linarith
  · cases hstep

/-- A step outside `possibly_sleep_or_abort`, or a failure. -/
theorem inv_copy (h : Inv rate t₀ s) {a : Progress.Action} (hstep : stepCopy D tree s a = some s') :
    Inv rate t₀ s' := by
  obtain ⟨copy, hcopy, hthrottle, rfl⟩ := stepCopy_cases hstep
  cases a with
  | next => exact inv_next h (hthrottle rfl) hcopy
  | poll r => exact inv_poll h hcopy
  | pop entries => exact inv_pop h hcopy
  | read n => exact inv_read h hcopy
  | write n => exact inv_write h hcopy
  | fail =>
    simp only [Progress.step] at hcopy
    split at hcopy
    · cases hcopy
    · cases hcopy
    · cases hcopy
      exact h.failed rfl rfl

/-- The loop ends when the bytes of the file fit the time. -/
theorem inv_check (h : Inv rate t₀ s) (hstep : stepCheck D tree s = some s') :
    Inv rate t₀ s' := by
  have hahead := h.ahead
  simp only [stepCheck] at hstep
  split at hstep
  · rename_i c hpc _
    split at hstep
    · rename_i hbudget
      obtain ⟨copy, hcopy, rfl⟩ := Option.map_eq_some_iff.mp hstep
      simp only [Progress.step, Progress.stepNext, hpc] at hcopy
      cases hcopy
      rw [hpc] at hahead
      apply h.goto
      refine ⟨hahead.1, ?_⟩
      have hfits := budgetedTime_le hbudget
      have hrate : (s.throttle : ℚ) ≤ rate := by exact_mod_cast h.throttle
      have hpassed : (0 : ℚ) ≤ s.clock - s.starttime := sub_nonneg.mpr h.started
      exact hfits.trans (mul_le_mul_of_nonneg_right hrate hpassed)
    · cases hstep
      exact ⟨h.throttle, h.begun, h.started, hahead⟩
  · cases hstep

theorem inv_step {a : Action} (h : Inv rate t₀ s) (hok : AtMost rate s a)
    (hstep : step D tree s a = some s') : Inv rate t₀ s' := by
  cases a with
  | tick seconds =>
    obtain ⟨hseconds, hstep⟩ := Option.ite_none_right_eq_some.mp hstep
    cases hstep
    exact h.tick hseconds
  | setThrottle bytes_per_second =>
    cases hstep
    exact ⟨hok, h.begun, h.started, h.ahead⟩
  | copy a => exact inv_copy h hstep
  | check => exact inv_check h hstep
  | poll r =>
    simp only [step, stepPoll] at hstep
    split at hstep
    · obtain ⟨copy, hcopy, rfl⟩ := Option.map_eq_some_iff.mp hstep
      have hpolled := inv_poll h hcopy
      exact ⟨hpolled.throttle, hpolled.begun, hpolled.started, hpolled.ahead⟩
    · cases hstep
  | sleep =>
    simp only [step, stepSleep] at hstep
    split at hstep
    · cases hstep
      exact ⟨h.throttle, h.begun, h.started, h.ahead⟩
    · cases hstep

/-- While the throttle is never above `rate`, the bytes that the session has copied are at most
those that fit the time since its start, and one chunk: at every moment of every run, whatever
the files and directories, and also in a session that fails or is disabled. Once all directories
have been gone through, the chunk is paid for. The clock and the throttle only restrict the
copier: what it copies and reports it could copy and report without them. -/
theorem rate_bounded {uninitialized throttle : Nat} {clock : ℚ} {t : State} {as : List Action}
    (hthrottle : throttle ≤ rate)
    (hok : RunOk (step D tree) (AtMost rate) (start uninitialized clock throttle) as)
    (hrun : run (step D tree) (start uninitialized clock throttle) as = some t) :
    (t.copy.totalBytesBackedUp : ℚ) ≤ rate * (t.clock - clock) + Convergence.bufSize ∧
    (t.copy.pc = .returned → (t.copy.totalBytesBackedUp : ℚ) ≤ rate * (t.clock - clock)) ∧
    ∃ bs, run (Progress.step D tree) (Progress.start uninitialized) bs = some t.copy := by
  have hproject := @run_project State Action (step D tree) Progress.State Progress.Action
    (Progress.step D tree) (AtMost rate) (fun _ _ => True) (Inv rate clock) State.copy
  obtain ⟨hinv, bs, -, hbs⟩ := hproject (fun s a s' h hok hstep => by
    refine ⟨inv_step h hok hstep, ?_⟩
    rcases step_project hstep with hsame | ⟨b, hb⟩
    · exact Or.inl hsame
    · exact Or.inr ⟨b, trivial, hb⟩) (inv_start uninitialized clock hthrottle) hok hrun
  exact ⟨hinv.total, fun hpc => hinv.idle (Or.inr (Or.inr (Or.inr hpc))), bs, hbs⟩

def hasReturned (s : State) : Bool :=
  match s.copy.pc with
  | .returned => true
  | _ => false

theorem hasReturned_iff : hasReturned s = true ↔ s.copy.pc = .returned := by
  rw [hasReturned]
  cases s.copy.pc <;> simp

def oneDirectory : DirectorySet := ⟨[(['/', 'a'], ['/', 'd'])], fun _ => false⟩

/-- A file of two bytes is copied at one byte per second. -/
def slowRun : List Action :=
  [.copy .next, .copy (.poll 0), .copy (.pop [['x']]), .copy (.poll 0), .copy (.pop []),
    .copy (.read 2), .copy (.poll 0), .copy (.write 2),
    .check, .poll 0, .sleep, .tick 1, .check, .poll 0, .sleep, .tick 1, .check,
    .copy (.read 0), .copy .next, .copy .next]

theorem rate_bounded_slowRun :
    ∃ t, run (step oneDirectory fun _ => Progress.oneFile) (start 0 5 1) slowRun =
        some t ∧ t.copy.totalBytesBackedUp = 2 ∧ t.clock = 7 ∧
      (t.copy.totalBytesBackedUp : ℚ) ≤ (1 : Nat) * (t.clock - 5) := by
  have hok : RunOk (step oneDirectory fun _ => Progress.oneFile) (AtMost 1) (start 0 5 1)
      slowRun := by
    apply runOk_of_mem
    simp [slowRun, AtMost]
  have hend : (run (step oneDirectory fun _ => Progress.oneFile) (start 0 5 1) slowRun).map
      (fun t => (t.copy.totalBytesBackedUp, t.clock, hasReturned t)) = some (2, 7, true) := by
    decide +kernel
  obtain ⟨t, hrun, ht⟩ := Option.map_eq_some_iff.mp hend
  simp only [Prod.mk.injEq] at ht
  obtain ⟨hbytes, hclock, hreturned⟩ := ht
  exact ⟨t, hrun, hbytes, hclock,
    (rate_bounded (le_refl 1) hok hrun).2.1 (hasReturned_iff.mp hreturned)⟩

/-! ## The waiting copier -/

/-- A sleep that is asked for when the file has taken `actual_time` and its budget is
`budgeted_time`: a second, or what is left of the budget, to the microsecond. -/
structure Asked (actual_time : ℚ) (budgeted_time : WithTop ℚ) (microseconds : Nat) : Prop where
  second : microseconds ≤ 1000000
  within : ((actual_time + microseconds / 1000000 : ℚ) : WithTop ℚ) ≤ budgeted_time
  enough : microseconds = 1000000 ∨
    budgeted_time < ((actual_time + (microseconds + 1) / 1000000 : ℚ) : WithTop ℚ)

theorem asked {actual_time : ℚ} {budgeted_time : WithTop ℚ} (h : actual_time < budgeted_time) :
    Asked actual_time budgeted_time (microseconds (sleepTime budgeted_time actual_time)) := by
  cases budgeted_time with
  | top =>
    have hsecond : microseconds (sleepTime ⊤ actual_time) = 1000000 := if_pos (WithTop.coe_lt_top 1)
    rw [hsecond]
    exact ⟨le_refl _, le_top, Or.inl rfl⟩
  | coe budget =>
    have hleft : 0 < budget - actual_time := sub_pos.mpr (WithTop.coe_lt_coe.mp h)
    have hsleep : sleepTime (budget : WithTop ℚ) actual_time =
        ((budget - actual_time : ℚ) : WithTop ℚ) := rfl
    rw [hsleep, microseconds]
    split
    · rename_i hlong
      have hlong : 1 < budget - actual_time := WithTop.coe_lt_coe.mp hlong
      refine ⟨le_refl _, WithTop.coe_le_coe.mpr ?_, Or.inl rfl⟩
      push_cast
      linarith
    · rename_i hshort
      have hshort : budget - actual_time ≤ 1 := not_lt.mp fun h => hshort (WithTop.coe_lt_coe.mpr h)
      rw [WithTop.untopD_coe]
      have hnonneg : 0 ≤ ⌊(budget - actual_time) * 1000000⌋ :=
        Int.floor_nonneg.mpr (by positivity)
      have hcast : ((⌊(budget - actual_time) * 1000000⌋.toNat : Nat) : ℚ) =
          (⌊(budget - actual_time) * 1000000⌋ : ℚ) := by
        exact_mod_cast Int.toNat_of_nonneg hnonneg
      have hfloor := Int.floor_le ((budget - actual_time) * 1000000)
      have hceil := Int.lt_floor_add_one ((budget - actual_time) * 1000000)
      refine ⟨?_, WithTop.coe_le_coe.mpr ?_, Or.inr (WithTop.coe_lt_coe.mpr ?_)⟩
      · have hle : ((⌊(budget - actual_time) * 1000000⌋.toNat : Nat) : ℚ) ≤ (1000000 : Nat) := by
          rw [hcast]
          push_cast
          linarith
        exact_mod_cast hle
      · rw [hcast]
        linarith
      · rw [hcast]
        linarith

/-- Before every sleep comes a call of the callback, and the sleep is as it should be. -/
def Paced (events : List Event) : Prop :=
  ∀ i actual_time budgeted_time us, events[i]? = some (.sleep actual_time budgeted_time us) →
    (∃ j, i = j + 1 ∧ events[j]? = some .poll) ∧ Asked actual_time budgeted_time us

structure Waiting (s : State) : Prop where
  paced : Paced s.events
  polling : ∀ actual_time budgeted_time, s.wait = .polling actual_time budgeted_time →
    actual_time < budgeted_time
  sleeping : ∀ actual_time budgeted_time, s.wait = .sleeping actual_time budgeted_time →
    actual_time < budgeted_time ∧ ∃ events, s.events = events ++ [.poll]

theorem waiting_start (uninitialized : Nat) (clock : ℚ) (throttle : Nat) :
    Waiting (start uninitialized clock throttle) where
  paced i _ _ _ h := by cases h
  polling _ _ h := by cases h
  sleeping _ _ h := by cases h

theorem Paced.poll {events : List Event} (h : Paced events) : Paced (events ++ [.poll]) := by
  intro i actual_time budgeted_time us hi
  by_cases hlt : i < events.length
  · rw [List.getElem?_append_left hlt] at hi
    obtain ⟨⟨j, rfl, hj⟩, hasked⟩ := h i _ _ _ hi
    refine ⟨⟨j, rfl, ?_⟩, hasked⟩
    rw [List.getElem?_append_left (by omega)]
    exact hj
  · rw [List.getElem?_append_right (by omega)] at hi
    have hmem := List.mem_of_getElem? hi
    rw [List.mem_singleton] at hmem
    cases hmem

theorem Paced.sleep {events : List Event} (h : Paced (events ++ [.poll])) {actual_time : ℚ}
    {budgeted_time : WithTop ℚ} {us : Nat} (hasked : Asked actual_time budgeted_time us) :
    Paced (events ++ [.poll] ++ [.sleep actual_time budgeted_time us]) := by
  intro i actual_time' budgeted_time' us' hi
  have hlength : (events ++ [Event.poll]).length = events.length + 1 := List.length_append
  by_cases hlt : i < events.length + 1
  · rw [List.getElem?_append_left (by omega)] at hi
    obtain ⟨⟨j, rfl, hj⟩, hasked'⟩ := h i _ _ _ hi
    refine ⟨⟨j, rfl, ?_⟩, hasked'⟩
    rw [List.getElem?_append_left (by omega)]
    exact hj
  · rw [List.getElem?_append_right (by omega)] at hi
    have hlast : i = events.length + 1 := by
      have hshort := (List.getElem?_eq_some_iff.mp hi).1
      rw [List.length_singleton] at hshort
      omega
    have hmem := List.mem_of_getElem? hi
    rw [List.mem_singleton] at hmem
    cases hmem
    refine ⟨⟨events.length, hlast, ?_⟩, hasked⟩
    rw [List.getElem?_append_left (by omega), List.getElem?_append_right (le_refl _),
      Nat.sub_self]
    rfl

theorem Waiting.congr (h : Waiting s) (hwait : s'.wait = s.wait) (hevents : s'.events = s.events) :
    Waiting s' where
  paced := hevents ▸ h.paced
  polling := hwait ▸ h.polling
  sleeping := by
    rw [hwait, hevents]
    exact h.sleeping

theorem waiting_step {a : Action} (h : Waiting s) (hstep : step D tree s a = some s') :
    Waiting s' := by
  cases a with
  | tick seconds =>
    obtain ⟨-, hstep⟩ := Option.ite_none_right_eq_some.mp hstep
    cases hstep
    exact h.congr rfl rfl
  | setThrottle bytes_per_second =>
    cases hstep
    exact h.congr rfl rfl
  | copy a =>
    obtain ⟨copy, hcopy, -, rfl⟩ := stepCopy_cases hstep
    cases a with
    | write n =>
      exact ⟨h.paced, (fun _ _ hwait => by cases hwait), (fun _ _ hwait => by cases hwait)⟩
    | _ => exact h.congr rfl rfl
  | check =>
    simp only [step, stepCheck] at hstep
    split at hstep
    · split at hstep
      · obtain ⟨copy, hcopy, rfl⟩ := Option.map_eq_some_iff.mp hstep
        exact h.congr rfl rfl
      · rename_i hbudget
        cases hstep
        refine ⟨h.paced, fun _ _ hwait => ?_, (fun _ _ hwait => by cases hwait)⟩
        cases hwait
        exact not_le.mp hbudget
    · cases hstep
  | poll r =>
    simp only [step, stepPoll] at hstep
    split at hstep
    · rename_i hwait
      obtain ⟨copy, hcopy, rfl⟩ := Option.map_eq_some_iff.mp hstep
      refine ⟨h.paced.poll, (fun _ _ hwait' => by cases hwait'), fun _ _ hwait' => ?_⟩
      cases hwait'
      exact ⟨h.polling _ _ hwait, s.events, rfl⟩
    · cases hstep
  | sleep =>
    simp only [step, stepSleep] at hstep
    split at hstep
    · rename_i hwait
      cases hstep
      obtain ⟨hless, events, hevents⟩ := h.sleeping _ _ hwait
      refine ⟨?_, (fun _ _ hwait' => by cases hwait'), (fun _ _ hwait' => by cases hwait')⟩
      have hpaced := h.paced
      rw [hevents] at hpaced ⊢
      exact hpaced.sleep (asked hless)
    · cases hstep

/-- While the copier waits, in every run, it calls the callback before every sleep, and asks for
a second, or for what the time read before the callback has left of the budget, to the
microsecond. -/
theorem sleeps_paced {uninitialized throttle : Nat} {clock : ℚ} {t : State} {as : List Action}
    (hrun : run (step D tree) (start uninitialized clock throttle) as = some t) :
    Paced t.events :=
  (run_invariant_all (fun _ _ _ h hstep => waiting_step h hstep)
    (waiting_start uninitialized clock throttle) hrun).paced

/-- The microseconds of a sleep. -/
def Event.slept : Event → Option Nat
  | .poll => none
  | .sleep _ _ us => some us

theorem sleeps_paced_slowRun :
    ∃ t, run (step oneDirectory fun _ => Progress.oneFile) (start 0 5 1) slowRun = some t ∧
      t.events.map Event.slept = [none, some 1000000, none, some 1000000] ∧ Paced t.events := by
  have hend : (run (step oneDirectory fun _ => Progress.oneFile) (start 0 5 1) slowRun).map
      (fun t => t.events.map Event.slept) = some [none, some 1000000, none, some 1000000] := by
    decide +kernel
  obtain ⟨t, hrun, hevents⟩ := Option.map_eq_some_iff.mp hend
  exact ⟨t, hrun, hevents, sleeps_paced hrun⟩

end TokuBackup.Throttle
