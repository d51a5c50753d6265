import TokuBackup.Convergence.ThreadSteps

/-!
# Opening and closing fds keeps the invariant

`open` and `close` move the reference count and decide when the destination comes and
goes. The destination goes only when the count shows that no fd is usable and that the
copier is not copying.
-/

namespace TokuBackup.Convergence

open Kernel

section

variable {s s' : State} {fd : Nat} {d : Fd}

/-! ## Frames -/

theorem Locks.congr (h : Locks s) (hl : s'.lockedRanges = s.lockedRanges)
    (hthreads : s'.threads = s.threads) (hcop : s'.copier.held = s.copier.held) : Locks s' := by
  have heff : effectOf s' = effectOf s := by
    unfold effectOf
    rw [hthreads]
  have hheld : heldBy s' = heldBy s := by
    funext p
    cases p with
    | none => simp only [heldBy, hcop]
    | some t => simp only [heldBy, heff]
  exact ⟨by rw [hl, hheld]; exact h.locked, by rw [hheld]; exact h.disjoint,
    by rw [heff]; exact h.truncates⟩

theorem Descs.congr (h : Descs s) (hthreads : s'.threads = s.threads)
    (hfds : ∀ fd d t, s.fds fd = some d → d.lock = some t →
      ∃ d', s'.fds fd = some d' ∧ d'.lock = d.lock ∧ d'.offset = d.offset) : Descs s' where
  locked t fd buf start ht := by
    rw [hthreads] at ht
    obtain ⟨d, hd, hl, ho⟩ := h.locked t fd buf start ht
    obtain ⟨d', hd', hl', ho'⟩ := hfds fd d t hd hl
    exact ⟨d', hd', hl'.trans hl, ho'.trans ho⟩
  ranged t fd buf e ht := by
    rw [hthreads] at ht
    obtain ⟨d, hd, hl, ho⟩ := h.ranged t fd buf e ht
    obtain ⟨d', hd', hl', ho'⟩ := hfds fd d t hd hl
    exact ⟨d', hd', hl'.trans hl, by rw [ho', ho]⟩
  wrote t fd buf e ht := by
    rw [hthreads] at ht
    obtain ⟨d, hd, hl⟩ := h.wrote t fd buf e ht
    obtain ⟨d', hd', hl', -⟩ := hfds fd d t hd hl
    exact ⟨d', hd', hl'.trans hl⟩
  pwrite t fd buf offset e ht := by
    rw [hthreads] at ht
    exact h.pwrite t fd buf offset e ht
  fits t e hp := by
    refine h.fits t e ?_
    rw [pendingOf, ← hthreads]
    exact hp

theorem pendingOf_congr (hthreads : s'.threads = s.threads) (t : Nat) :
    pendingOf s' t = pendingOf s t := by
  rw [pendingOf, pendingOf, hthreads]

/-- The stage of `fd` changes, and the reference count with it. -/
theorem Refs.stage (h : Refs s) (fd : Nat)
    (hcounted : Lib.Counted (holdsRef s') s'.referenceCount)
    (hother : ∀ fd', fd' ≠ fd → stageOf s' fd' = stageOf s fd')
    (hleave : stageOf s fd = some .usable → ∀ (t : Nat) (th : Thread) (c : Call),
      s.threads[t]? = some th → th.call? = some c → c.fd ≠ fd)
    (henter : stageOf s' fd = some .usable → s.destination ≠ none)
    (hthreads : s'.threads = s.threads) (hdest : s'.destination = s.destination)
    (hfresh : s'.fresh = s.fresh) (hcop : s'.copier = s.copier) (hdst : s'.dst = s.dst) :
    Refs s' where
  counted := hcounted
  usable t th c ht hc := by
    rw [hthreads] at ht
    have hu := h.usable t th c ht hc
    have hne : c.fd ≠ fd := by
      intro he
      rw [he] at hu
      exact hleave hu t th c ht hc he
    rw [hother _ hne]
    exact hu
  fresh d hd := by
    rw [hfresh]
    exact h.fresh d (hdest ▸ hd)
  fetched t c e id ht := by
    rw [hdest]
    exact h.fetched t c e id (hthreads ▸ ht)
  present hd := by
    rw [hdest] at hd
    rw [hdst, hcop]
    rcases h.present hd with hno | hearly
    · left
      intro fd' hu
      by_cases hfd : fd' = fd
      · subst hfd
        exact henter hu hd
      · exact hno fd' ((hother fd' hfd).symm.trans hu)
    · exact Or.inr hearly
  early hp := by
    rw [hcop] at hp ⊢
    rw [hdest]
    exact h.early hp
  made hp := by
    rw [hdest]
    exact h.made (hcop ▸ hp)
  offset hp := by
    rw [hcop] at hp ⊢
    rw [hdest]
    exact h.offset hp
  writing buf hp := by
    rw [hcop] at hp ⊢
    rw [hdest]
    exact h.writing buf hp

theorem stageOf_update_self (fd : Nat) {x : Option Fd} (hs : s'.fds = Function.update s.fds fd x) :
    stageOf s' fd = x.map Fd.stage := by
  rw [stageOf, hs, Function.update_self]

theorem stageOf_update_ne {x : Option Fd} (hs : s'.fds = Function.update s.fds fd x) {fd' : Nat}
    (hne : fd' ≠ fd) : stageOf s' fd' = stageOf s fd' := by
  rw [stageOf, hs, Function.update_of_ne hne, stageOf]

/-- A stage change that is not counted. -/
theorem counted_same (fd : Nat) (h : Refs s)
    {x : Option Fd} (hs : s'.fds = Function.update s.fds fd x)
    (hcop : s'.copier = s.copier)
    (hholds : (x.map Fd.stage).any FdStage.holds = (stageOf s fd).any FdStage.holds) :
    Lib.Counted (holdsRef s') s.referenceCount := by
  refine h.counted.congr fun p => ?_
  cases p with
  | none => simp only [holdsRef, hcop]
  | some fd' =>
    by_cases hfd : fd' = fd
    · subst hfd
      simp only [holdsRef, stageOf_update_self fd' hs, hholds]
    · simp only [holdsRef, stageOf_update_ne hs hfd]

theorem holdsRef_update {x : Option Fd} (hs : s'.fds = Function.update s.fds fd x)
    (hcop : s'.copier = s.copier) (p : Option Nat) :
    holdsRef s' p ↔ if p = some fd then (x.map Fd.stage).any FdStage.holds = true
      else holdsRef s p := by
  cases p with
  | none => simp [holdsRef, hcop]
  | some fd' =>
    by_cases hfd : fd' = fd
    · subst hfd
      simp only [holdsRef, stageOf_update_self fd' hs, if_true]
    · simp only [holdsRef, stageOf_update_ne hs hfd, Option.some.injEq, hfd, if_false]

/-- The fd takes a reference. -/
theorem counted_add (fd : Nat) (h : Refs s)
    {x : Option Fd} (hs : s'.fds = Function.update s.fds fd x)
    (hcop : s'.copier = s.copier) (hold : (stageOf s fd).any FdStage.holds = false)
    (hnew : (x.map Fd.stage).any FdStage.holds = true) :
    Lib.Counted (holdsRef s') (s.referenceCount + 1) := by
  refine h.counted.add (i := some fd) (by simp [holdsRef, hold]) fun p => ?_
  rw [holdsRef_update hs hcop p]
  by_cases hp : p = some fd
  · simp [hp, hnew]
  · simp [hp]

/-- The fd gives its reference back. -/
theorem counted_remove (fd : Nat) (h : Refs s)
    {x : Option Fd} (hs : s'.fds = Function.update s.fds fd x)
    (hcop : s'.copier = s.copier) (hold : (stageOf s fd).any FdStage.holds = true)
    (hnew : (x.map Fd.stage).any FdStage.holds = false) :
    Lib.Counted (holdsRef s') (s.referenceCount - 1) := by
  refine h.counted.remove (i := some fd) (by simpa only [holdsRef] using hold) fun p => ?_
  rw [holdsRef_update hs hcop p]
  by_cases hp : p = some fd
  · simp [hp, hnew]
  · simp [hp]

/-! ## The destination goes -/

theorem Refs.removeDestination (h : Refs s) (hno : ∀ fd, stageOf s fd ≠ some .usable)
    (hcop : s.copier.pc ≠ .created ∧ s.copier.pc.copying = false) :
    Refs { s with destination := none } where
  counted := h.counted
  usable := h.usable
  fresh d hd := by cases hd
  fetched t c e id ht := absurd (h.usable t _ c ht rfl) (hno c.fd)
  present _ := Or.inl hno
  early hp := ⟨(h.early hp).1, fun d hd => by cases hd⟩
  made hp := by
    rcases hp with hp | hp
    · exact absurd hp hcop.1
    · have hp : s.copier.pc.copying = true := hp
      rw [hcop.2] at hp
      cases hp
  offset _ d hd := by cases hd
  writing buf hp := by
    have hp : s.copier.pc = .writing buf := hp
    have hc := hcop.2
    rw [hp] at hc
    cases hc

/-- Who tries to remove the destination holds a reference of its own; the removal happens
only when it is the only one. -/
theorem Refs.tryToRemoveDestination (h : Refs s) {p : Option Nat} (hp : holdsRef s p)
    (hfd : ∀ fd, p = some fd → stageOf s fd ≠ some .usable)
    (hcop : p = none → s.copier.pc ≠ .created ∧ s.copier.pc.copying = false) :
    Refs (tryToRemoveDestination s) := by
  rw [Convergence.tryToRemoveDestination]
  split
  · exact h
  · split
    · exact h
    · rename_i hcount
      have hle : s.referenceCount ≤ 1 := Nat.le_of_not_lt hcount
      refine h.removeDestination (fun fd hu => ?_) ?_
      · have heq := h.counted.unique hle hp (holdsRef_of_usable hu)
        exact hfd fd heq hu
      · by_cases hpn : p = none
        · exact hcop hpn
        · have hnot : ¬ holdsRef s none := fun hn => hpn (h.counted.unique hle hp hn)
          constructor
          · intro hpc
            exact hnot (show s.copier.pc.holds = true by rw [hpc]; rfl)
          · cases hpc : s.copier.pc <;> simp_all [holdsRef, CopierPc.holds, CopierPc.copying]

theorem tryToRemoveDestination_frame (s : State) :
    ∃ dest, tryToRemoveDestination s = { s with destination := dest } := by
  rw [tryToRemoveDestination]
  split
  · exact ⟨s.destination, rfl⟩
  · split
    · exact ⟨s.destination, rfl⟩
    · exact ⟨none, rfl⟩

theorem tryToCreateDestinationFile_frame (s : State) :
    ∃ dest fresh, tryToCreateDestinationFile s =
      { s with destination := dest, fresh := fresh } := by
  rw [tryToCreateDestinationFile]
  split
  · exact ⟨_, _, rfl⟩
  · exact ⟨s.destination, s.fresh, rfl⟩

theorem tryToRemoveLocked_frame (s : State) :
    ∃ dest l, tryToRemoveLocked s =
      { s with
        referenceCount := s.referenceCount - 1
        destination := dest
        lockedRanges := l } := by
  simp only [tryToRemoveLocked]
  split
  · obtain ⟨dest, hdest⟩ :=
      tryToRemoveDestination_frame { s with referenceCount := s.referenceCount - 1 }
    rw [hdest]
    exact ⟨dest, [], rfl⟩
  · exact ⟨s.destination, s.lockedRanges, rfl⟩

/-- The last reference is gone: nothing is held and nobody uses the file. -/
theorem quiet_of_zero (h : Refs s) (hz : s.referenceCount = 0) :
    (∀ fd, stageOf s fd ≠ some .usable) ∧ s.copier.pc.holds = false ∧ ∀ p, heldBy s p = none := by
  have hnone : ∀ p, ¬ holdsRef s p := by
    intro p hp
    have := h.counted.pos hp
    omega
  have hno : ∀ fd, stageOf s fd ≠ some .usable := fun fd hu => hnone _ (holdsRef_of_usable hu)
  have hcop : s.copier.pc.holds = false := by
    have := hnone none
    simpa only [holdsRef, Bool.not_eq_true] using this
  refine ⟨hno, hcop, fun p => ?_⟩
  cases p with
  | none =>
    simp only [heldBy, Copier.held]
    cases hpc : s.copier.pc <;> simp_all [CopierPc.holds]
  | some t =>
    simp only [heldBy, Option.map_eq_none_iff]
    by_contra he
    obtain ⟨e, he⟩ := Option.ne_none_iff_exists'.mp he
    rw [effectOf, Option.bind_eq_some_iff] at he
    obtain ⟨th, hth, he⟩ := he
    obtain ⟨c, hc⟩ := Thread.call_of_effect he
    exact hno c.fd (h.usable t th c hth hc)

/-- The tail of `try_to_remove` once the reference is given back: the last reference
deletes the source file. -/
theorem inv_delete (h : Inv s) (hz : s.referenceCount = 0) :
    Inv { tryToRemoveDestination s with lockedRanges := [] } := by
  obtain ⟨hno, hcop, hheld⟩ := quiet_of_zero h.refs hz
  have hrefs : Refs (tryToRemoveDestination s) := by
    rw [tryToRemoveDestination]
    split
    · exact h.refs
    · split
      · exact h.refs
      · refine h.refs.removeDestination hno ?_
        cases hpc : s.copier.pc <;> simp_all [CopierPc.holds, CopierPc.copying]
  obtain ⟨dest, hdest⟩ := tryToRemoveDestination_frame s
  rw [hdest] at hrefs ⊢
  refine ⟨⟨hrefs.counted, hrefs.usable, hrefs.fresh, hrefs.fetched, hrefs.present, hrefs.early,
    hrefs.made, hrefs.offset, hrefs.writing⟩, ⟨fun r => ?_, ?_, h.locks.truncates⟩, ?_,
    h.data.congr rfl rfl (pendingOf_congr rfl) rfl, h.fault⟩
  · rw [List.count_nil]
    refine Lib.Counted.none fun p hp => ?_
    have hp : heldBy s p = some r := hp
    rw [hheld p] at hp
    cases hp
  · intro p q r r' _ hp
    have hp : heldBy s p = some r := hp
    rw [hheld p] at hp
    cases hp
  · exact h.descs.congr rfl fun fd d t hd _ => ⟨d, hd, rfl, rfl⟩

/-- `try_to_remove_locked` in a step whose state `t` has given the reference back. -/
theorem inv_tryToRemoveLocked {t : State} (hgiven : Inv t)
    (hcount : t.referenceCount = s.referenceCount - 1) (hdest : t.destination = s.destination)
    (hlocks : t.lockedRanges = s.lockedRanges) :
    Inv { t with
      destination := (tryToRemoveLocked s).destination
      lockedRanges := (tryToRemoveLocked s).lockedRanges } := by
  by_cases hz : s.referenceCount - 1 = 0
  · have hdel := inv_delete hgiven (hcount.trans hz)
    by_cases hnone : s.destination = none
    · simpa only [tryToRemoveLocked, hz, hcount, if_true, tryToRemoveDestination, hdest, hnone]
        using hdel
    · simpa only [tryToRemoveLocked, hz, hcount, if_true, tryToRemoveDestination, hdest, hnone,
        if_false, gt_iff_lt, Nat.not_lt_zero] using hdel
  · simpa only [tryToRemoveLocked, hz, if_false, ← hdest, ← hlocks] using hgiven

theorem inv_tryToRemoveDestination (h : Inv s) {p : Option Nat} (hp : holdsRef s p)
    (hfd : ∀ fd, p = some fd → stageOf s fd ≠ some .usable)
    (hcop : p = none → s.copier.pc ≠ .created ∧ s.copier.pc.copying = false) :
    Inv (tryToRemoveDestination s) := by
  have hrefs := h.refs.tryToRemoveDestination hp hfd hcop
  obtain ⟨dest, hdest⟩ := tryToRemoveDestination_frame s
  rw [hdest] at hrefs ⊢
  exact ⟨hrefs, h.locks.congr rfl rfl rfl, h.descs.congr rfl fun fd d t hd _ => ⟨d, hd, rfl, rfl⟩,
    h.data.congr rfl rfl (pendingOf_congr rfl) rfl, h.fault⟩

/-- `try_to_create_destination_file`: a new destination starts at offset `0`. -/
theorem inv_tryToCreateDestinationFile (h : Inv s) :
    Inv (tryToCreateDestinationFile s) ∧ (tryToCreateDestinationFile s).destination ≠ none := by
  rw [tryToCreateDestinationFile]
  split
  · rename_i hnone
    refine ⟨⟨?_, h.locks.congr rfl rfl rfl,
      h.descs.congr rfl fun fd d t hd _ => ⟨d, hd, rfl, rfl⟩,
      h.data.congr rfl rfl (pendingOf_congr rfl) rfl, h.fault⟩, by simp⟩
    have hnot : ¬ (s.copier.pc = .created ∨ s.copier.pc.copying = true) :=
      fun hm => h.refs.made hm hnone
    exact
      { counted := h.refs.counted
        usable := h.refs.usable
        fresh := fun d hd => by
          cases hd
          exact Nat.lt_succ_self _
        fetched := fun t c e id ht => by
          have hold := h.refs.fetched t c e id ht
          rw [hnone] at hold
          cases hold
        present := fun hd => by cases hd
        early := fun hp => ⟨(h.refs.early hp).1, fun d hd => by cases hd; rfl⟩
        made := fun _ hd => by cases hd
        offset := fun hp => absurd (Or.inr hp) hnot
        writing := fun buf hp =>
          absurd (Or.inr (by rw [show s.copier.pc = .writing buf from hp]; rfl)) hnot }
  · rename_i hsome
    exact ⟨h, hsome⟩

/-! ## The stages of `open` and `close` -/

theorem moveFd_some {a b : FdStage} (h : moveFd s fd a b = some s') :
    ∃ d, s.fds fd = some d ∧ d.stage = a ∧
      s' = { s with fds := Function.update s.fds fd (some { d with stage := b }) } := by
  unfold moveFd at h
  split at h
  · rename_i d hd
    split at h
    · rename_i hstage
      cases h
      exact ⟨d, hd, hstage, rfl⟩
    · cases h
  · cases h

theorem descs_moveFd (h : Descs s) (hd : s.fds fd = some d) (b : FdStage)
    (hthreads : s'.threads = s.threads)
    (hfds : s'.fds = Function.update s.fds fd (some { d with stage := b })) : Descs s' := by
  refine h.congr hthreads fun fd' d' t hd' _ => ?_
  rw [hfds]
  by_cases hfd : fd' = fd
  · subst hfd
    cases hd.symm.trans hd'
    exact ⟨_, Function.update_self .., rfl, rfl⟩
  · exact ⟨d', by rw [Function.update_of_ne hfd]; exact hd', rfl, rfl⟩

/-- A stage change between two stages that are both counted, or both not. -/
theorem inv_moveFd (h : Inv s) {a b : FdStage} (hm : moveFd s fd a b = some s')
    (hholds : a.holds = b.holds)
    (hleave : a = .usable → inUse s fd = false)
    (henter : b = .usable → s.destination ≠ none) : Inv s' := by
  obtain ⟨d, hd, hstage, rfl⟩ := moveFd_some hm
  have hold : stageOf s fd = some a := by simp [stageOf, hd, hstage]
  refine ⟨h.refs.stage fd ?_ (fun fd' => stageOf_update_ne rfl) ?_ ?_ rfl rfl rfl rfl rfl,
    h.locks.congr rfl rfl rfl, descs_moveFd h.descs hd b rfl rfl,
    h.data.congr rfl rfl (pendingOf_congr rfl) rfl, h.fault⟩
  · refine counted_same (s := s) fd h.refs rfl rfl ?_
    simp only [hold, Option.map_some, Option.any_some, hholds]
  · intro hu t th c ht hc hfd
    have hnot := hleave (Option.some.inj (hold.symm.trans hu))
    have hyes : inUse s fd = true := by
      rw [inUse, List.any_eq_true]
      exact ⟨th, List.mem_of_getElem? ht, by simp [hc, hfd]⟩
    rw [hnot] at hyes
    cases hyes
  · intro hu
    rw [stageOf_update_self (s := s) fd rfl] at hu
    exact henter (Option.some.inj hu)

theorem inv_openReal (h : Inv s) (hfree : s.fds fd = none) :
    Inv { s with fds := Function.update s.fds fd (some ⟨.opened, 0, none⟩) } := by
  have hold : stageOf s fd = none := by simp [stageOf, hfree]
  refine ⟨h.refs.stage fd ?_ (fun fd' => stageOf_update_ne rfl) ?_ ?_ rfl rfl rfl rfl rfl,
    h.locks.congr rfl rfl rfl, h.descs.congr rfl ?_,
    h.data.congr rfl rfl (pendingOf_congr rfl) rfl, h.fault⟩
  · refine counted_same (s := s) fd h.refs rfl rfl ?_
    simp [hold, FdStage.holds]
  · intro hu
    rw [hold] at hu
    cases hu
  · intro hu
    rw [stageOf_update_self (s := s) fd rfl] at hu
    cases hu
  · intro fd' d t hd _
    have hne : fd' ≠ fd := by
      rintro rfl
      rw [hfree] at hd
      cases hd
    exact ⟨d, by simpa only [Function.update_of_ne hne] using hd, rfl, rfl⟩

theorem inv_closeReal (h : Inv s) (hd : s.fds fd = some d) (hr : d.stage = .released) :
    Inv { s with fds := Function.update s.fds fd none } := by
  have hold : stageOf s fd = some .released := by simp [stageOf, hd, hr]
  refine ⟨h.refs.stage fd ?_ (fun fd' => stageOf_update_ne rfl) ?_ ?_ rfl rfl rfl rfl rfl,
    h.locks.congr rfl rfl rfl, ?_, h.data.congr rfl rfl (pendingOf_congr rfl) rfl, h.fault⟩
  · refine counted_same (s := s) fd h.refs rfl rfl ?_
    simp [hold, FdStage.holds]
  · intro hu
    rw [hold] at hu
    cases hu
  · intro hu
    rw [stageOf_update_self (s := s) fd rfl] at hu
    cases hu
  · -- a thread whose description is locked is in a call, and its fd is usable
    have hne : ∀ (t : Nat) (th : Thread) (c : Call), s.threads[t]? = some th →
        th.call? = some c → c.fd ≠ fd := by
      intro t th c ht hc hfd
      have hu := h.refs.usable t th c ht hc
      rw [hfd, hold] at hu
      cases hu
    have hupd : ∀ fd' d', fd' ≠ fd → s.fds fd' = some d' →
        Function.update s.fds fd none fd' = some d' := by
      intro fd' d' hfd hd'
      rw [Function.update_of_ne hfd]
      exact hd'
    exact
      { locked := fun t fd' buf start ht => by
          obtain ⟨d', hd', hrest⟩ := h.descs.locked t fd' buf start ht
          exact ⟨d', hupd fd' d' (hne t _ _ ht rfl) hd', hrest⟩
        ranged := fun t fd' buf e ht => by
          obtain ⟨d', hd', hrest⟩ := h.descs.ranged t fd' buf e ht
          exact ⟨d', hupd fd' d' (hne t _ _ ht rfl) hd', hrest⟩
        wrote := fun t fd' buf e ht => by
          obtain ⟨d', hd', hrest⟩ := h.descs.wrote t fd' buf e ht
          exact ⟨d', hupd fd' d' (hne t _ _ ht rfl) hd', hrest⟩
        pwrite := h.descs.pwrite
        fits := h.descs.fits }

theorem inv_openAttach (h : Inv s)
    (hm : moveFd (getOrCreateLocked s) fd .opened .attached = some s') : Inv s' := by
  unfold getOrCreateLocked at hm
  obtain ⟨d, hd, hstage, rfl⟩ := moveFd_some hm
  have hd : s.fds fd = some d := hd
  have hold : stageOf s fd = some .opened := by simp [stageOf, hd, hstage]
  refine ⟨h.refs.stage fd ?_ (fun fd' => stageOf_update_ne rfl) ?_ ?_ rfl rfl rfl rfl rfl,
    h.locks.congr rfl rfl rfl, descs_moveFd h.descs hd .attached rfl rfl,
    h.data.congr rfl rfl (pendingOf_congr rfl) rfl, h.fault⟩
  · exact counted_add (s := s) fd h.refs rfl rfl (by simp [hold, FdStage.holds])
      (by simp [FdStage.holds])
  · intro hu
    rw [hold] at hu
    cases hu
  · intro hu
    rw [stageOf_update_self (s := s) fd rfl] at hu
    cases hu

theorem inv_closeRelease (h : Inv s)
    (hm : moveFd (tryToRemoveLocked s) fd .erased .released = some s') : Inv s' := by
  obtain ⟨d, hd, hstage, rfl⟩ := moveFd_some hm
  obtain ⟨dest, l, hframe⟩ := tryToRemoveLocked_frame s
  have hd : s.fds fd = some d := by rw [hframe] at hd; exact hd
  have hold : stageOf s fd = some .erased := by simp [stageOf, hd, hstage]
  -- the reference is given back first, then the last one deletes the source file
  have hgiven : Inv { s with
      referenceCount := s.referenceCount - 1
      fds := Function.update s.fds fd (some { d with stage := .released }) } := by
    refine ⟨h.refs.stage fd ?_ (fun fd' => stageOf_update_ne rfl) ?_ ?_ rfl rfl rfl rfl rfl,
      h.locks.congr rfl rfl rfl, descs_moveFd h.descs hd .released rfl rfl,
      h.data.congr rfl rfl (pendingOf_congr rfl) rfl, h.fault⟩
    · exact counted_remove (s := s) fd h.refs rfl rfl (by simp [hold, FdStage.holds])
        (by simp [FdStage.holds])
    · intro hu
      rw [hold] at hu
      cases hu
    · intro hu
      rw [stageOf_update_self (s := s) fd rfl] at hu
      cases hu
  have hremoved := inv_tryToRemoveLocked hgiven rfl rfl rfl
  rw [hframe] at hremoved ⊢
  exact hremoved

end

end TokuBackup.Convergence
