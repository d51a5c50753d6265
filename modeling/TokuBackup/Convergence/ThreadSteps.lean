import TokuBackup.Convergence.Invariant

/-!
# The steps of application threads keep the invariant

A data call locks a range, changes the source, captures the change and unlocks. The range
lock makes it compatible with every other pending effect and keeps the bytes in the
copier's buffer as they are in the source.
-/

namespace TokuBackup.Convergence

open Kernel

section

variable {s s' : State} {t : Nat} {th th' : Thread}

/-! ## Descriptions -/

/-- A step of thread `t` that leaves the descriptions locked by other threads alone. -/
theorem Descs.thread (h : Descs s) (ht : s.threads[t]? = some th)
    (hs : s'.threads = s.threads.set t th')
    (hfds : ∀ fd d t', s.fds fd = some d → d.lock = some t' → t' ≠ t → s'.fds fd = some d)
    (hlocked : ∀ fd buf start, th' = .descLocked fd buf start →
      ∃ d, s'.fds fd = some d ∧ d.lock = some t ∧ d.offset = start)
    (hranged : ∀ fd buf e, th' = .ranged (.write fd buf) e →
      ∃ d, s'.fds fd = some d ∧ d.lock = some t ∧ e = .write d.offset buf)
    (hwrote : ∀ fd buf e, th' = .wrote fd buf e → ∃ d, s'.fds fd = some d ∧ d.lock = some t)
    (hpwrite : ∀ fd buf offset e, th' = .ranged (.pwrite fd buf offset) e →
      e = .write offset buf)
    (hfits : ∀ e, th'.pending = some e → e.fits = true) : Descs s' where
  locked t' fd buf start ht' := by
    rw [hs] at ht'
    rcases set_thread_cases ht' with ⟨rfl, he⟩ | ⟨hne, hold⟩
    · exact hlocked fd buf start he.symm
    · obtain ⟨d, hd, hl, ho⟩ := h.locked t' fd buf start hold
      exact ⟨d, hfds fd d t' hd hl hne, hl, ho⟩
  ranged t' fd buf e ht' := by
    rw [hs] at ht'
    rcases set_thread_cases ht' with ⟨rfl, he⟩ | ⟨hne, hold⟩
    · exact hranged fd buf e he.symm
    · obtain ⟨d, hd, hl, ho⟩ := h.ranged t' fd buf e hold
      exact ⟨d, hfds fd d t' hd hl hne, hl, ho⟩
  wrote t' fd buf e ht' := by
    rw [hs] at ht'
    rcases set_thread_cases ht' with ⟨rfl, he⟩ | ⟨hne, hold⟩
    · exact hwrote fd buf e he.symm
    · obtain ⟨d, hd, hl⟩ := h.wrote t' fd buf e hold
      exact ⟨d, hfds fd d t' hd hl hne, hl⟩
  pwrite t' fd buf offset e ht' := by
    rw [hs] at ht'
    rcases set_thread_cases ht' with ⟨rfl, he⟩ | ⟨-, hold⟩
    · exact hpwrite fd buf offset e he.symm
    · exact h.pwrite t' fd buf offset e hold
  fits t' e hp := by
    rw [pendingOf_thread ht hs] at hp
    rcases Mirrored.update_some hp with ⟨rfl, he⟩ | ⟨-, hold⟩
    · exact hfits e he
    · exact h.fits t' e hold

/-! ## Contents -/

theorem Data.congr (h : Data s) (hsrc : s'.src = s.src) (hdst : s'.dst = s.dst)
    (hp : ∀ t, pendingOf s' t = pendingOf s t) (hcop : s'.copier = s.copier) : Data s' where
  src_le := by rw [hsrc]; exact h.src_le
  mirrored := by
    rw [hsrc, hdst, hcop]
    exact h.mirrored.congr hp Iff.rfl
  lockStart := by rw [hcop]; exact h.lockStart
  sourceOffset := by rw [hcop]; exact h.sourceOffset
  chunk := by rw [hcop, hsrc]; exact h.chunk

theorem pendingOf_same (ht : s.threads[t]? = some th) (hs : s'.threads = s.threads.set t th')
    (hp : th'.pending = th.pending) (t' : Nat) : pendingOf s' t' = pendingOf s t' := by
  rw [pendingOf_thread ht hs, hp, ← pendingOf_self ht, Function.update_eq_self]

/-- The bytes in the copier's buffer are still those of the source after an effect whose
range is locked: the copier's range is disjoint from it. -/
theorem chunk_real (h : Inv s) {e : Effect} (he : effectOf s t = some e) (hfits : e.fits = true)
    {buf : List UInt8} (hpc : s.copier.pc = .writing buf) :
    s.copier.totalWrittenThisFile + buf.length ≤ (e.apply s.src).len ∧
      ∀ i, i < buf.length →
        (e.apply s.src).byte (s.copier.totalWrittenThisFile + i) = buf.getD i 0 := by
  obtain ⟨hne, hsize, hlen, hbyte⟩ := h.data.chunk buf hpc
  have hstart := h.data.lockStart (Or.inr ⟨buf, hpc⟩)
  have hle := h.data.src_le
  have hpos := List.length_pos_iff.mpr hne
  have hdisj : s.copier.range.Disjoint e.range := by
    refine h.locks.disjoint none (some t) _ _ (by simp) ?_ ?_
    · simp only [heldBy, Copier.held, hpc]
    · simp only [heldBy, he, Option.map_some]
  rw [Range.disjoint_iff] at hdisj
  simp only [Copier.range, hstart] at hdisj
  cases e with
  | write o b =>
    refine ⟨hlen.trans (Content.len_le_write _ _ _), fun i hi => ?_⟩
    rw [← hbyte i hi]
    apply Effect.apply_byte_of_not_covers
    intro hcov
    exact hdisj _ (by omega) (by omega) hcov.1 hcov.2
  | truncate l =>
    simp only [Effect.fits, decide_eq_true_eq] at hfits
    have hl : s.copier.totalWrittenThisFile + buf.length ≤ l := by
      by_contra hlt
      exact hdisj (max l s.copier.totalWrittenThisFile) (by omega) (by omega)
        (by simp only [Effect.range]; omega) (by simp only [Effect.range]; omega)
    refine ⟨hl, fun i hi => ?_⟩
    rw [← hbyte i hi]
    apply Effect.apply_byte_of_not_covers
    simp only [Effect.Covers]
    omega

/-- The real call: the source changes and the effect is pending. -/
theorem Data.real (h : Inv s) (ht : s.threads[t]? = some th)
    (hs : s'.threads = s.threads.set t th') {e : Effect} (he : th.effect? = some e)
    (hp : th.pending = none) (hp' : th'.pending = some e) (hfits : e.fits = true)
    (hsrc : s'.src = e.apply s.src) (hdst : s'.dst = s.dst) (hcop : s'.copier = s.copier) :
    Data s' := by
  have heff : effectOf s t = some e := (effectOf_self ht).trans he
  refine ⟨?_, ?_, by rw [hcop]; exact h.data.lockStart, by rw [hcop]; exact h.data.sourceOffset, ?_⟩
  · rw [hsrc]
    cases e with
    | write o b =>
      simp only [Effect.fits, decide_eq_true_eq] at hfits
      exact Content.write_len_le h.data.src_le fun _ => hfits
    | truncate l =>
      simp only [Effect.fits, decide_eq_true_eq] at hfits
      exact hfits
  · rw [hsrc, hdst, hcop, pendingOf_thread ht hs, hp']
    refine h.data.mirrored.real ((pendingOf_self ht).trans hp) fun t' e' hne hpe => ?_
    exact h.locks.compatible h.descs heff hfits hne hpe
  · intro buf hpc
    rw [hcop] at hpc ⊢
    obtain ⟨hne, hsize, -, -⟩ := h.data.chunk buf hpc
    rw [hsrc]
    exact ⟨hne, hsize, chunk_real h heff hfits hpc⟩

/-- The capture: the effect reaches the backup. -/
theorem Data.capture (h : Inv s) (ht : s.threads[t]? = some th)
    (hs : s'.threads = s.threads.set t th') {e : Effect} (hp : th.pending = some e)
    (hp' : th'.pending = none) (hsrc : s'.src = s.src) (hdst : s'.dst = e.apply s.dst)
    (hcop : s'.copier = s.copier) : Data s' := by
  have hpend : pendingOf s t = some e := (pendingOf_self ht).trans hp
  refine ⟨by rw [hsrc]; exact h.data.src_le, ?_, by rw [hcop]; exact h.data.lockStart,
    by rw [hcop]; exact h.data.sourceOffset, by rw [hcop, hsrc]; exact h.data.chunk⟩
  rw [hsrc, hdst, hcop, pendingOf_thread ht hs, hp']
  refine h.data.mirrored.apply hpend fun t' e' hne hpe => ?_
  exact h.locks.compatible h.descs (effect_of_pending hpend) (h.descs.fits t e hpend) hne hpe

/-- The call finds no destination: nothing has been copied or captured yet. -/
theorem Data.uncaptured (h : Inv s) (ht : s.threads[t]? = some th)
    (hs : s'.threads = s.threads.set t th') (hp' : th'.pending = none)
    (hempty : s.dst = Content.empty) (hearly : s.copier.pc.early = true)
    (hsrc : s'.src = s.src) (hdst : s'.dst = s.dst) (hcop : s'.copier = s.copier) : Data s' := by
  obtain ⟨hzero, -⟩ := h.refs.early (Or.inl hearly)
  have hfin : s.copier.pc.finished = false := by
    cases hpc : s.copier.pc <;> simp_all [CopierPc.early, CopierPc.finished]
  refine ⟨by rw [hsrc]; exact h.data.src_le, ?_, by rw [hcop]; exact h.data.lockStart,
    by rw [hcop]; exact h.data.sourceOffset, by rw [hcop, hsrc]; exact h.data.chunk⟩
  have hm := h.data.mirrored
  rw [hempty, hzero] at hm
  rw [hsrc, hdst, hcop, hempty, hzero, pendingOf_thread ht hs, hp']
  exact hm.skip (by simp [hfin])

/-! ## The calls -/

/-- `description->lock`, then `get_offset`. -/
theorem inv_lockDesc (h : Inv s) {fd : Nat} {buf : List UInt8} {d : Fd}
    (ht : s.threads[t]? = some (.called (.write fd buf))) (hd : s.fds fd = some d)
    (hfree : d.lock = none) :
    Inv { s with
      fds := Function.update s.fds fd (some { d with lock := some t })
      threads := s.threads.set t (.descLocked fd buf d.offset) } := by
  refine ⟨h.refs.thread rfl (Or.inr ⟨_, rfl, h.refs.usable t _ _ ht rfl⟩) (by simp) ?_ rfl rfl rfl
    rfl fun _ => rfl, h.locks.thread ht rfl rfl rfl rfl, ?_,
    h.data.congr rfl rfl (pendingOf_same ht rfl rfl) rfl, h.fault⟩
  · intro fd'
    by_cases hfd : fd' = fd
    · subst hfd
      simp [stageOf, hd]
    · simp [stageOf, Function.update_of_ne hfd]
  · refine h.descs.thread ht rfl ?_ ?_ (by simp) (by simp) (by simp) (by simp [Thread.pending])
    · intro fd' d' t' hd' hl' _
      have hne : fd' ≠ fd := by
        rintro rfl
        cases hd.symm.trans hd'
        rw [hfree] at hl'
        cases hl'
      simpa only [Function.update_of_ne hne] using hd'
    · intro fd' buf' start' he
      cases he
      exact ⟨{ d with lock := some t }, Function.update_self .., rfl, rfl⟩

/-- `lock_range`. -/
theorem inv_lockRange (h : Inv s) {c : Call} {e : Effect} {l : List Range}
    (ht : s.threads[t]? = some th) (hc : th.call? = some c) (he : th.effect? = none)
    (hp : th.pending = none) (hl : lockRange s.lockedRanges e.range = some l)
    (htr : ∀ len, e = .truncate len → ∀ t' len', effectOf s t' = some (.truncate len') →
      llongMax ≤ len ∨ llongMax ≤ len' → len = len')
    (hranged : ∀ fd buf, c = .write fd buf →
      ∃ d, s.fds fd = some d ∧ d.lock = some t ∧ e = .write d.offset buf)
    (hpwrite : ∀ fd buf offset, c = .pwrite fd buf offset → e = .write offset buf) :
    Inv { s with lockedRanges := l, threads := s.threads.set t (.ranged c e) } := by
  refine ⟨h.refs.thread rfl (Or.inr ⟨c, rfl, h.refs.usable t th c ht hc⟩) (by simp)
    (fun _ => rfl) rfl rfl rfl rfl fun _ => rfl, h.locks.lock ht rfl he rfl rfl hl htr, ?_,
    h.data.congr rfl rfl (pendingOf_same ht rfl (by rw [hp]; rfl)) rfl, h.fault⟩
  refine h.descs.thread ht rfl (fun _ _ _ hd _ _ => hd) (by simp) ?_ (by simp) ?_
    (by simp [Thread.pending])
  · intro fd buf e' he'
    cases he'
    exact hranged fd buf rfl
  · intro fd buf offset e' he'
    cases he'
    exact hpwrite fd buf offset rfl

/-- The real `write`: it lands where the range was locked. -/
theorem inv_realWrite (h : Inv s) {fd : Nat} {buf : List UInt8} {e : Effect} {d : Fd}
    (ht : s.threads[t]? = some (.ranged (.write fd buf) e)) (hd : s.fds fd = some d)
    (hfits : (Effect.write d.offset buf).fits = true) :
    Inv { s with
      src := (Effect.write d.offset buf).apply s.src
      fds := Function.update s.fds fd (some { d with offset := d.offset + buf.length })
      threads := s.threads.set t (.wrote fd buf e) } := by
  obtain ⟨d₀, hd₀, hlock, rfl⟩ := h.descs.ranged t fd buf e ht
  cases hd.symm.trans hd₀
  refine ⟨h.refs.thread rfl (Or.inr ⟨_, rfl, h.refs.usable t _ _ ht rfl⟩) (by simp) ?_ rfl rfl rfl
    rfl fun _ => rfl, h.locks.thread ht rfl rfl rfl rfl, ?_,
    Data.real h ht rfl rfl rfl rfl hfits rfl rfl rfl, h.fault⟩
  · intro fd'
    by_cases hfd : fd' = fd
    · subst hfd
      simp [stageOf, hd]
    · simp [stageOf, Function.update_of_ne hfd]
  · refine h.descs.thread ht rfl ?_ (by simp) (by simp) ?_ (by simp) ?_
    · intro fd' d' t' hd' hl' hne'
      have hne : fd' ≠ fd := by
        rintro rfl
        cases hd.symm.trans hd'
        rw [hlock] at hl'
        exact hne' (Option.some.inj hl').symm
      simpa only [Function.update_of_ne hne] using hd'
    · intro fd' buf' e' he'
      cases he'
      exact ⟨_, Function.update_self .., hlock⟩
    · intro e' he'
      cases he'
      exact hfits

/-- The real `pwrite` or `ftruncate`. -/
theorem inv_realCall (h : Inv s) {c : Call} {e : Effect}
    (ht : s.threads[t]? = some (.ranged c e)) (hfits : e.fits = true) :
    Inv { s with src := e.apply s.src, threads := s.threads.set t (.done c e) } := by
  refine ⟨h.refs.thread rfl (Or.inr ⟨c, rfl, h.refs.usable t _ _ ht rfl⟩) (by simp)
    (fun _ => rfl) rfl rfl rfl rfl fun _ => rfl, h.locks.thread ht rfl rfl rfl rfl, ?_,
    Data.real h ht rfl rfl rfl rfl hfits rfl rfl rfl, h.fault⟩
  refine h.descs.thread ht rfl (fun _ _ _ hd _ _ => hd) (by simp) (by simp) (by simp) (by simp) ?_
  intro e' he'
  cases he'
  exact hfits

theorem inv_realEmpty (h : Inv s) {fd offset : Nat} {e : Effect}
    (ht : s.threads[t]? = some (.ranged (.pwrite fd [] offset) e)) :
    Inv { s with
      src := e.apply s.src
      threads := s.threads.set t (.applied (.pwrite fd [] offset) e) } := by
  have he := h.descs.pwrite t fd [] offset e ht
  have hsame : e.apply s.src = s.src := by
    subst he
    apply Content.ext'
    · simp [Effect.apply, Content.write]
    · intro i
      exact Content.write_byte_out (by simp only [List.length_nil]; omega)
  rw [hsame]
  refine ⟨h.refs.thread rfl (Or.inr ⟨_, rfl, h.refs.usable t _ _ ht rfl⟩) (by simp)
    (fun _ => rfl) rfl rfl rfl rfl fun _ => rfl, h.locks.thread ht rfl rfl rfl rfl, ?_,
    h.data.congr rfl rfl (pendingOf_same ht rfl rfl) rfl, h.fault⟩
  exact h.descs.thread ht rfl (fun _ _ _ hd _ _ => hd) (by simp) (by simp) (by simp) (by simp)
    (by simp [Thread.pending])

/-- `description->unlock`. -/
theorem inv_unlockDesc (h : Inv s) {fd : Nat} {buf : List UInt8} {e : Effect} {d : Fd}
    (ht : s.threads[t]? = some (.wrote fd buf e)) (hd : s.fds fd = some d) :
    Inv { s with
      fds := Function.update s.fds fd (some { d with lock := none })
      threads := s.threads.set t (.done (.write fd buf) e) } := by
  obtain ⟨d₀, hd₀, hlock⟩ := h.descs.wrote t fd buf e ht
  cases hd.symm.trans hd₀
  have hpend : pendingOf s t = some e := pendingOf_self ht
  refine ⟨h.refs.thread rfl (Or.inr ⟨_, rfl, h.refs.usable t _ _ ht rfl⟩) (by simp) ?_ rfl rfl rfl
    rfl fun _ => rfl, h.locks.thread ht rfl rfl rfl rfl, ?_,
    h.data.congr rfl rfl (pendingOf_same ht rfl rfl) rfl, h.fault⟩
  · intro fd'
    by_cases hfd : fd' = fd
    · subst hfd
      simp [stageOf, hd]
    · simp [stageOf, Function.update_of_ne hfd]
  · refine h.descs.thread ht rfl ?_ (by simp) (by simp) (by simp) (by simp) ?_
    · intro fd' d' t' hd' hl' hne'
      have hne : fd' ≠ fd := by
        rintro rfl
        cases hd.symm.trans hd'
        rw [hlock] at hl'
        exact hne' (Option.some.inj hl').symm
      simpa only [Function.update_of_ne hne] using hd'
    · intro e' he'
      cases he'
      exact h.descs.fits t e hpend

/-- `get_destination`: without a destination the call is not captured. -/
theorem inv_fetch (h : Inv s) {c : Call} {e : Effect} (ht : s.threads[t]? = some (.done c e)) :
    Inv { s with
      threads := s.threads.set t (.fetched c e (s.destination.map DestinationFile.id)) } := by
  have hpend : pendingOf s t = some e := pendingOf_self ht
  have hu := h.refs.usable t _ c ht rfl
  refine ⟨h.refs.thread rfl (Or.inr ⟨c, rfl, hu⟩) ?_ (fun _ => rfl) rfl rfl rfl rfl fun _ => rfl,
    h.locks.thread ht rfl rfl rfl rfl, ?_, ?_, h.fault⟩
  · intro c' e' id he'
    simp only [Thread.fetched.injEq] at he'
    exact he'.2.2
  · refine h.descs.thread ht rfl (fun _ _ _ hd _ _ => hd) (by simp) (by simp) (by simp)
      (by simp) ?_
    intro e' he'
    cases hd : s.destination with
    | none =>
      rw [hd] at he'
      cases he'
    | some d =>
      rw [hd] at he'
      cases he'
      exact h.descs.fits t e hpend
  · cases hd : s.destination with
    | none =>
      rcases h.refs.present hd with hno | ⟨hempty, hearly⟩
      · exact absurd hu (hno c.fd)
      · exact Data.uncaptured h ht rfl rfl hempty hearly rfl rfl rfl
    | some d => exact h.data.congr rfl rfl (pendingOf_same ht rfl rfl) rfl

theorem inv_uncaptured (h : Inv s) {c : Call} {e : Effect}
    (ht : s.threads[t]? = some (.fetched c e none)) :
    Inv { s with threads := s.threads.set t (.applied c e) } := by
  refine ⟨h.refs.thread rfl (Or.inr ⟨c, rfl, h.refs.usable t _ c ht rfl⟩) (by simp)
    (fun _ => rfl) rfl rfl rfl rfl fun _ => rfl, h.locks.thread ht rfl rfl rfl rfl, ?_,
    h.data.congr rfl rfl (pendingOf_same ht rfl rfl) rfl, h.fault⟩
  exact h.descs.thread ht rfl (fun _ _ _ hd _ _ => hd) (by simp) (by simp) (by simp) (by simp)
    (by simp [Thread.pending])

/-- The capture: the destination that was fetched is still the file's destination. -/
theorem inv_capture (h : Inv s) {c : Call} {e : Effect} {id : Nat}
    (ht : s.threads[t]? = some (.fetched c e (some id))) :
    Inv { useDestination s id e.apply with threads := s.threads.set t (.applied c e) } := by
  have hdest := h.refs.fetched t c e id ht
  have hne : s.destination ≠ none := by
    intro hnone
    rw [hnone] at hdest
    cases hdest
  rw [useDestination, if_pos hdest]
  refine ⟨h.refs.thread rfl (Or.inr ⟨c, rfl, h.refs.usable t _ c ht rfl⟩) (by simp)
    (fun _ => rfl) rfl rfl rfl rfl fun hnone => absurd hnone hne,
    h.locks.thread ht rfl rfl rfl rfl, ?_, Data.capture h ht rfl rfl rfl rfl rfl rfl, h.fault⟩
  exact h.descs.thread ht rfl (fun _ _ _ hd _ _ => hd) (by simp) (by simp) (by simp) (by simp)
    (by simp [Thread.pending])

/-- `unlock_range`, and the call returns. -/
theorem inv_unlockRange (h : Inv s) {c : Call} {e : Effect}
    (ht : s.threads[t]? = some (.applied c e)) :
    Inv { unlock s e.range with threads := s.threads.set t .idle } := by
  obtain ⟨hlocks, hfault, -⟩ := h.locks.unlock ht rfl h.fault rfl
  have hframe : ∃ l f, unlock s e.range = { s with lockedRanges := l, fault := f } := by
    simp only [unlock]
    split
    · exact ⟨_, s.fault, rfl⟩
    · exact ⟨s.lockedRanges, true, rfl⟩
  obtain ⟨l, f, hu⟩ := hframe
  rw [hu] at hlocks hfault ⊢
  refine ⟨h.refs.thread rfl (Or.inl rfl) (by simp) (fun _ => rfl) rfl rfl rfl rfl fun _ => rfl,
    hlocks, ?_, h.data.congr rfl rfl (pendingOf_same ht rfl rfl) rfl, hfault⟩
  exact h.descs.thread ht rfl (fun _ _ _ hd _ _ => hd) (by simp) (by simp) (by simp) (by simp)
    (by simp [Thread.pending])

/-- A thread that makes a call. -/
theorem inv_call (h : Inv s) {c : Call} (ht : s.threads[t]? = some .idle) {d : Fd}
    (hd : s.fds c.fd = some d) (hu : d.stage = .usable) :
    Inv { s with threads := s.threads.set t (.called c) } := by
  have hstage : stageOf s c.fd = some .usable := by simp [stageOf, hd, hu]
  refine ⟨h.refs.thread rfl (Or.inr ⟨c, rfl, hstage⟩) (by simp) (fun _ => rfl) rfl rfl rfl rfl
    fun _ => rfl, h.locks.thread ht rfl rfl rfl rfl, ?_,
    h.data.congr rfl rfl (pendingOf_same ht rfl rfl) rfl, h.fault⟩
  exact h.descs.thread ht rfl (fun _ _ _ hd _ _ => hd) (by simp) (by simp) (by simp) (by simp)
    (by simp [Thread.pending])

end

/-- The length of the truncate whose lock the thread takes next. -/
def Thread.wantsTruncate : Thread → Option Nat
  | .called (.ftruncate _ length) => some length
  | _ => none

/-- The length of the truncate whose lock the thread holds. -/
def Thread.holdsTruncate (th : Thread) : Option Nat :=
  match th.effect? with
  | some (.truncate length) => some length
  | _ => none

/-- An `ftruncate` to `LLONG_MAX` locks the empty range, so nothing keeps another
`ftruncate` from running beside it. The condition says that none with another length does:
when thread `t` locks the range of its `ftruncate`, the lengths of the truncates that hold
a lock are all below `LLONG_MAX`, as is its own, or they are its own. -/
def NoTruncateRace (s : State) : Action → Prop
  | .thread t =>
    ∀ length ∈ s.threads[t]?.bind Thread.wantsTruncate, ∀ th ∈ s.threads,
      ∀ length' ∈ th.holdsTruncate, llongMax ≤ length ∨ llongMax ≤ length' → length = length'
  | _ => True

instance decidableNoTruncateRace (s : State) : ∀ a, Decidable (NoTruncateRace s a)
  | .thread t => by
    unfold NoTruncateRace
    infer_instance
  | .openReal _ | .openAttach _ | .openPublish _ | .openCapture _ | .closeBegin _
  | .closeUnhook _ | .closeErase _ | .closeRelease _ | .closeReal _ | .call _ _
  | .copier _ | .copierAbort _ => isTrue trivial

theorem NoTruncateRace.other {s : State} {t fd length : Nat} (h : NoTruncateRace s (.thread t))
    (ht : s.threads[t]? = some (.called (.ftruncate fd length))) {t' length' : Nat}
    (he : effectOf s t' = some (.truncate length'))
    (hmax : llongMax ≤ length ∨ llongMax ≤ length') : length = length' := by
  obtain ⟨th, hth, he⟩ := Option.bind_eq_some_iff.mp he
  refine h length ?_ th (List.mem_of_getElem? hth) length' ?_ hmax
  · rw [ht]
    rfl
  · simp only [Thread.holdsTruncate, he, Option.mem_def]

/-- Every step of a data call keeps the invariant. -/
theorem inv_stepThread {s s' : State} {t : Nat} (h : Inv s) (hok : NoTruncateRace s (.thread t))
    (hstep : stepThread s t = some s') : Inv s' := by
  simp only [stepThread] at hstep
  split at hstep
  case h_1 fd buf ht =>
    split at hstep
    · rename_i d hd
      split at hstep
      · rename_i hfree
        cases hstep
        exact inv_lockDesc h ht hd hfree
      · cases hstep
    · cases hstep
  case h_2 fd buf offset ht =>
    obtain ⟨l, hl, rfl⟩ := Option.map_eq_some_iff.mp hstep
    refine inv_lockRange h ht rfl rfl rfl hl (by simp) (by simp) ?_
    intro fd' buf' offset' hc
    cases hc
    rfl
  case h_3 fd length ht =>
    obtain ⟨l, hl, rfl⟩ := Option.map_eq_some_iff.mp hstep
    refine inv_lockRange h ht rfl rfl rfl hl ?_ (by simp) (by simp)
    intro len he t' len' ht' hmax
    cases he
    exact hok.other ht ht' hmax
  case h_4 fd buf start ht =>
    obtain ⟨l, hl, rfl⟩ := Option.map_eq_some_iff.mp hstep
    obtain ⟨d, hd, hlock, hoff⟩ := h.descs.locked t fd buf start ht
    refine inv_lockRange h ht rfl rfl rfl hl (by simp) ?_ (by simp)
    intro fd' buf' hc
    cases hc
    exact ⟨d, hd, hlock, by rw [hoff]⟩
  case h_5 fd buf e ht =>
    split at hstep
    · rename_i d hd
      split at hstep
      · rename_i hfits
        cases hstep
        exact inv_realWrite h ht hd hfits
      · cases hstep
    · cases hstep
  case h_6 fd buf offset e ht =>
    split at hstep
    · rename_i hfits
      cases hstep
      by_cases hbuf : buf = []
      · subst hbuf
        exact inv_realEmpty h ht
      · rw [if_neg hbuf]
        exact inv_realCall h ht hfits
    · cases hstep
  case h_7 fd length e ht =>
    split at hstep
    · rename_i hfits
      cases hstep
      exact inv_realCall h ht hfits
    · cases hstep
  case h_8 fd buf e ht =>
    split at hstep
    · rename_i d hd
      cases hstep
      exact inv_unlockDesc h ht hd
    · cases hstep
  case h_9 c e ht =>
    cases hstep
    exact inv_fetch h ht
  case h_10 c e ht =>
    cases hstep
    exact inv_uncaptured h ht
  case h_11 c e id ht =>
    cases hstep
    have hframe : (useDestination s id e.apply).threads = s.threads := by
      simp only [useDestination]
      split <;> rfl
    rw [hframe]
    exact inv_capture h ht
  case h_12 c e ht =>
    cases hstep
    have hframe : (unlock s e.range).threads = s.threads := by
      simp only [unlock]
      split <;> rfl
    rw [hframe]
    exact inv_unlockRange h ht
  case h_13 => cases hstep
  case h_14 => cases hstep

end TokuBackup.Convergence
