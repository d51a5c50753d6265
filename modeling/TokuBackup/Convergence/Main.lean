import TokuBackup.Convergence.CopierSteps

/-!
# The backup of one file converges

Every step keeps the invariant, so it holds at the end of every run, and there, when the
copier's pass is over and no operation is in flight, nothing is pending: the backup file is
the source file.
-/

namespace TokuBackup.Convergence

open Kernel

/-! ## The invariant over whole runs -/

theorem inv_initial {s : State} (h : Initial s) : Inv s := by
  have hidle : ∀ (t : Nat) (th : Thread), s.threads[t]? = some th → th = .idle :=
    fun t th ht => h.threads th (List.mem_of_getElem? ht)
  have heffect : ∀ t, effectOf s t = none := by
    intro t
    rw [effectOf, Option.bind_eq_none_iff]
    intro th ht
    rw [hidle t th ht]
    rfl
  have hpending : ∀ t, pendingOf s t = none := by
    intro t
    rw [pendingOf, Option.bind_eq_none_iff]
    intro th ht
    rw [hidle t th ht]
    rfl
  have hheld : ∀ p, heldBy s p = none := by
    intro p
    cases p with
    | none => simp only [heldBy, h.copier, Copier.held]
    | some t => simp only [heldBy, heffect, Option.map_none]
  have hcounted : Lib.Counted (holdsRef s) s.referenceCount := by
    obtain ⟨H, hH, hcard⟩ := h.counted
    refine ⟨H.map ⟨some, Option.some_injective Nat⟩, fun p => ?_, by rw [Finset.card_map, hcard]⟩
    cases p with
    | none => simp [holdsRef, h.copier, CopierPc.holds]
    | some fd =>
      cases hfd : s.fds fd with
      | none => simp [holdsRef, stageOf, hH, hfd]
      | some d => simp [holdsRef, stageOf, hH, hfd, (h.fds fd d hfd).1, FdStage.holds]
  refine ⟨?_, ⟨?_, ?_, ?_⟩, ?_, ?_, h.fault⟩
  · exact
      { counted := hcounted
        usable := fun t th c ht hc => by
          rw [hidle t th ht] at hc
          cases hc
        fresh := fun d hd => (h.destination d hd).2
        fetched := fun t c e id ht => by cases hidle t _ ht
        present := fun _ => Or.inr ⟨h.dst, by rw [h.copier]; rfl⟩
        early := fun _ => ⟨by rw [h.copier], fun d hd => (h.destination d hd).1⟩
        made := fun hp => by simp [h.copier, CopierPc.copying] at hp
        offset := fun hp => by simp [h.copier, CopierPc.copying] at hp
        writing := fun buf hp => by simp [h.copier] at hp }
  · rw [h.lockedRanges]
    exact Locked.of_none hheld
  · intro p q r r' _ hp
    rw [hheld] at hp
    cases hp
  · intro t t' l l' _ ht
    rw [heffect] at ht
    cases ht
  · exact
      { locked := fun t fd buf start ht => by cases hidle t _ ht
        ranged := fun t fd buf e ht => by cases hidle t _ ht
        wrote := fun t fd buf e ht => by cases hidle t _ ht
        pwrite := fun t fd buf offset e ht => by cases hidle t _ ht
        fits := fun t e ht => by
          rw [hpending] at ht
          cases ht }
  · refine ⟨h.src, ?_, by simp [h.copier], by simp [h.copier], by simp [h.copier]⟩
    rw [h.dst, h.copier]
    exact Mirrored.initial s.src hpending (by simp [CopierPc.finished])

/-- One step of any party. -/
theorem inv_step {s s' : State} {a : Action} (h : Inv s) (hok : NoTruncateRace s a)
    (hstep : step s a = some s') : Inv s' := by
  cases a with
  | openReal fd =>
    simp only [step, Option.isNone_iff_eq_none] at hstep
    split at hstep
    · rename_i hfree
      cases hstep
      exact inv_openReal h hfree
    · cases hstep
  | openAttach fd => exact inv_openAttach h hstep
  | openPublish fd => exact inv_moveFd h hstep rfl (by simp) (by simp)
  | openCapture fd =>
    obtain ⟨hcreated, hsome⟩ := inv_tryToCreateDestinationFile h
    exact inv_moveFd hcreated hstep rfl (by simp) fun _ => hsome
  | closeBegin fd =>
    simp only [step] at hstep
    split at hstep
    · cases hstep
    · rename_i hfree
      exact inv_moveFd h hstep rfl (fun _ => Bool.not_eq_true _ ▸ hfree) (by simp)
  | closeUnhook fd =>
    have hstage : stageOf s fd = some .closing := by
      obtain ⟨dest, hframe⟩ := tryToRemoveDestination_frame s
      obtain ⟨d, hd, hcl, -⟩ := moveFd_some hstep
      rw [hframe] at hd
      have hd : s.fds fd = some d := hd
      simp only [stageOf, hd, Option.map_some, hcl]
    have hremoved := inv_tryToRemoveDestination h (p := some fd)
      (by rw [holdsRef, hstage]; rfl)
      (by rintro fd' ⟨⟩; rw [hstage]; simp) (by simp)
    exact inv_moveFd hremoved hstep rfl (by simp) (by simp)
  | closeErase fd => exact inv_moveFd h hstep rfl (by simp) (by simp)
  | closeRelease fd => exact inv_closeRelease h hstep
  | closeReal fd =>
    simp only [step] at hstep
    split at hstep
    · rename_i d hd
      split at hstep
      · rename_i hr
        cases hstep
        exact inv_closeReal h hd hr
      · cases hstep
    · cases hstep
  | call t c =>
    simp only [step] at hstep
    split at hstep
    · rename_i d ht hd
      split at hstep
      · rename_i hu
        cases hstep
        exact inv_call h ht hd hu
      · cases hstep
    · cases hstep
  | thread t => exact inv_stepThread h hok hstep
  | copier n => exact inv_stepCopier h hstep
  | copierAbort disabled => exact inv_abortCopier h hstep

theorem inv_run {s t : State} {as : List Action} (hs : Initial s)
    (hok : Lib.RunOk step NoTruncateRace s as) (hrun : Lib.run step s as = some t) : Inv t :=
  Lib.run_invariant (fun _ _ _ h hok hstep => inv_step h hok hstep) (inv_initial hs) hok hrun

/-- Where nothing is pending and the pass is over, the backup file is the source file. -/
theorem Inv.converged {s : State} (h : Inv s) (hover : PassOver s) (hquiet : Quiet s) :
    s.dst = s.src := by
  have hpending : ∀ p, pendingOf s p = none := by
    intro p
    rw [pendingOf, Option.bind_eq_none_iff]
    intro th hth
    rw [hquiet.1 th (List.mem_of_getElem? hth)]
    rfl
  have hfinished : s.copier.pc.finished = true := by
    rw [show s.copier.pc = .over true from hover]
    rfl
  exact h.data.mirrored.converged hpending hfinished

/-! ## Convergence

The two fixed runs below start from an empty file with two fds. In the first the copier
passes over the file while bytes are written and cut off again; in the second the lengths
of two overlapping truncates are `LLONG_MAX` and `0`. -/

/-- In every run in which no `ftruncate` to `LLONG_MAX` overlaps an `ftruncate` to another
length, the backup file is the source file whenever the copier's pass is over and no
operation is in flight; and no destination was used after it was closed, and no range
unlocked that was not locked. -/
theorem converges {s t : State} {as : List Action} (hs : Initial s)
    (hok : Lib.RunOk step NoTruncateRace s as) (hrun : Lib.run step s as = some t) :
    t.fault = false ∧ (PassOver t → Quiet t → t.dst = t.src) := by
  have hinv := inv_run hs hok hrun
  exact ⟨hinv.fault, hinv.converged⟩

/-- An empty file with two fds and a fresh destination. -/
def twoFds : State where
  src := Content.empty
  dst := Content.empty
  referenceCount := 2
  destination := some ⟨0, 0⟩
  fresh := 1
  lockedRanges := []
  fds fd := if fd < 2 then some ⟨.usable, 0, none⟩ else none
  threads := [.idle, .idle]
  copier := ⟨.start, 0, 0, 0, none⟩
  fault := false

theorem initial_twoFds : Initial twoFds where
  src := Nat.zero_le _
  dst := rfl
  destination d hd := by
    cases hd
    exact ⟨rfl, Nat.one_pos⟩
  counted := by
    refine ⟨{0, 1}, fun fd => ?_, rfl⟩
    simp only [twoFds, Finset.mem_insert, Finset.mem_singleton]
    split
    · simp only [Option.isSome_some, iff_true]
      omega
    · simp only [Option.isSome_none, Bool.false_eq_true, iff_false]
      omega
  fds fd d hd := by
    simp only [twoFds] at hd
    split at hd
    · cases hd
      exact ⟨rfl, rfl⟩
    · cases hd
  lockedRanges := rfl
  threads th hth := by
    simpa only [twoFds, List.mem_cons, List.not_mem_nil, or_false, or_self] using hth
  copier := rfl
  fault := rfl

/-- Two bytes are written, copied and captured, and one is cut off behind the copier. -/
def passWithCalls : List Action :=
  [.call 0 (.pwrite 0 [7, 8] 0), .thread 0, .thread 0,
    .copier 0, .copier 0, .copier 0, .copier 0,
    -- the write has reached the source and still holds its range: the copier waits
    .thread 0, .thread 0, .thread 0,
    .copier 0, .copier 1, .copier 0, .copier 0,
    .call 1 (.ftruncate 1 1), .thread 1, .thread 1, .thread 1, .thread 1, .thread 1,
    .copier 0, .copier 0, .copier 0, .copier 0, .copier 0, .copier 0]

theorem converges_passWithCalls :
    ∃ t, Lib.run step twoFds passWithCalls = some t ∧ PassOver t ∧ t.src.len = 1 ∧
      t.dst = t.src := by
  have hok : Lib.RunOk step NoTruncateRace twoFds passWithCalls := by decide +kernel
  refine ⟨_, rfl, rfl, rfl, ?_⟩
  refine (converges initial_twoFds hok rfl).2 rfl ⟨?_, ?_⟩
  · exact initial_twoFds.threads
  · exact fun fd d hd => (initial_twoFds.fds fd d hd).1

/-- The copier passes over the empty file; then the source is cut to `LLONG_MAX` and to
`0`, and the backup to `0` and to `LLONG_MAX`. -/
def truncateRace : List Action :=
  List.replicate 10 (.copier 0) ++
    [.call 0 (.ftruncate 0 llongMax), .thread 0, .call 1 (.ftruncate 1 0), .thread 1,
      .thread 0, .thread 1,
      .thread 1, .thread 1, .thread 0, .thread 0, .thread 0, .thread 1]

theorem not_converges_truncateRace :
    ¬ ∀ s t as, Initial s → Lib.run step s as = some t → PassOver t → Quiet t →
      t.dst = t.src := by
  intro h
  have hquiet : ∃ t, Lib.run step twoFds truncateRace = some t ∧ PassOver t ∧ Quiet t ∧
      t.src.len = 0 ∧ t.dst.len = llongMax :=
    ⟨_, rfl, rfl, ⟨initial_twoFds.threads, fun fd d hd => (initial_twoFds.fds fd d hd).1⟩,
      rfl, rfl⟩
  obtain ⟨t, hrun, hover, hq, hsrc, hdst⟩ := hquiet
  have heq := h twoFds t truncateRace initial_twoFds hrun hover hq
  rw [heq, hsrc] at hdst
  cases hdst

end TokuBackup.Convergence
