import TokuBackup.Convergence.FdSteps

/-!
# The copier's pass keeps the invariant

The source fd's offset, `m_total_written_this_file` and the offset of the destination's
descriptor move together. The chunk in the buffer is what the source holds at the
frontier, because the chunk's range is locked from before the read to after the write.
-/

namespace TokuBackup.Convergence

open Kernel

section

variable {s s' : State}

/-! ## Frames -/

theorem holdsRef_copier (hfds : s'.fds = s.fds) (hh : s'.copier.pc.holds = s.copier.pc.holds)
    (p : Option Nat) : holdsRef s' p ↔ holdsRef s p := by
  cases p with
  | none => simp only [holdsRef, hh]
  | some fd => simp only [holdsRef, stageOf, hfds]

/-- A copier step that leaves fds, threads and the reference count alone. What the copier
has to say about its destination is given for the new state. -/
theorem Refs.copier (h : Refs s) (hcounted : Lib.Counted (holdsRef s') s'.referenceCount)
    (hfds : s'.fds = s.fds) (hthreads : s'.threads = s.threads) (hfresh : s'.fresh = s.fresh)
    (hdest : s'.destination.map DestinationFile.id = s.destination.map DestinationFile.id)
    (hpresent : s.dst = Content.empty → s.copier.pc.early = true → s'.destination = none →
      s'.dst = Content.empty ∧ s'.copier.pc.early = true)
    (hearly : s'.copier.pc.early = true ∨ s'.copier.pc = .created →
      s'.copier.totalWrittenThisFile = 0 ∧ ∀ d, s'.destination = some d → d.offset = 0)
    (hmade : s'.copier.pc = .created ∨ s'.copier.pc.copying = true → s'.destination ≠ none)
    (hoffset : s'.copier.pc.copying = true →
      ∀ d, s'.destination = some d → d.offset = s'.copier.totalWrittenThisFile)
    (hwriting : ∀ buf, s'.copier.pc = .writing buf →
      s'.copier.dest = s'.destination.map DestinationFile.id) : Refs s' where
  counted := hcounted
  usable t th c ht hc := by
    rw [stageOf, hfds]
    exact h.usable t th c (hthreads ▸ ht) hc
  fresh d hd := by
    have hmap : s.destination.map DestinationFile.id = some d.id := by
      rw [← hdest, hd]
      rfl
    obtain ⟨d', hd', hid⟩ := Option.map_eq_some_iff.mp hmap
    rw [hfresh, ← hid]
    exact h.fresh d' hd'
  fetched t c e id ht := by
    rw [hdest]
    exact h.fetched t c e id (hthreads ▸ ht)
  present hd := by
    have hnone : s.destination = none := by
      rw [← Option.map_eq_none_iff, ← hdest, hd]
      rfl
    rcases h.present hnone with hno | ⟨hempty, hpc⟩
    · left
      intro fd
      rw [stageOf, hfds]
      exact hno fd
    · exact Or.inr (hpresent hempty hpc hd)
  early := hearly
  made := hmade
  offset := hoffset
  writing := hwriting

theorem effectOf_congr (hthreads : s'.threads = s.threads) : effectOf s' = effectOf s := by
  unfold effectOf
  rw [hthreads]

/-- The copier locks the range of its next chunk. -/
theorem Locks.copierLock (h : Locks s) (hthreads : s'.threads = s.threads)
    (hnone : s.copier.held = none) {r : Range} (hself : s'.copier.held = some r)
    (hl : lockRange s.lockedRanges r = some s'.lockedRanges) : Locks s' := by
  obtain ⟨-, hfree⟩ := lockRange_some hl
  have hother : ∀ q, q ≠ none → heldBy s' q = heldBy s q := by
    intro q hq
    cases q with
    | none => exact absurd rfl hq
    | some t => simp only [heldBy, effectOf_congr hthreads]
  refine ⟨h.locked.lock (p := none) hnone hl hself hother, ?_, ?_⟩
  · intro p q r₁ r₂ hpq hp hq
    by_cases hpn : p = none
    · subst hpn
      cases hself.symm.trans hp
      rw [hother q (Ne.symm hpq)] at hq
      exact (hfree r₂ (h.locked.mem hq)).symm
    · rw [hother p hpn] at hp
      by_cases hqn : q = none
      · subst hqn
        cases hself.symm.trans hq
        exact hfree r₁ (h.locked.mem hp)
      · rw [hother q hqn] at hq
        exact h.disjoint p q r₁ r₂ hpq hp hq
  · rw [effectOf_congr hthreads]
    exact h.truncates

/-- The copier unlocks the range of its chunk; this never takes the fatal branch. -/
theorem Locks.copierUnlock (h : Locks s)
    (hheld : s.copier.held = some s.copier.range) {c : Copier} (hself : c.held = none) :
    ∃ l, Convergence.unlock s s.copier.range = { s with lockedRanges := l } ∧
      Locks { s with lockedRanges := l, copier := c } := by
  have hother : ∀ q, q ≠ none → heldBy { s with copier := c } q = heldBy s q := by
    intro q hq
    cases q with
    | none => exact absurd rfl hq
    | some t => rfl
  obtain ⟨l, hl, hlocked⟩ := h.locked.unlock (p := none) hheld hself hother
  refine ⟨l, by simp only [Convergence.unlock, hl], hlocked, ?_, h.truncates⟩
  intro p q r r' hpq hp hq
  have hpn : p ≠ none := by
    rintro rfl
    cases hself.symm.trans hp
  have hqn : q ≠ none := by
    rintro rfl
    cases hself.symm.trans hq
  exact h.disjoint p q r r' hpq ((hother p hpn).symm.trans hp) ((hother q hqn).symm.trans hq)

/-! ## The steps of the pass -/

/-- `get_or_create_locked`. -/
theorem inv_copierAttach (h : Inv s) (hpc : s.copier.pc = .start) :
    Inv { getOrCreateLocked s with copier := { s.copier with pc := .attached } } := by
  unfold getOrCreateLocked
  obtain ⟨hzero, hoff⟩ := h.refs.early (Or.inl (by rw [hpc]; rfl))
  refine ⟨h.refs.copier ?_ rfl rfl rfl rfl (fun hd _ _ => ⟨hd, rfl⟩) (fun _ => ⟨hzero, hoff⟩)
    (by simp [CopierPc.copying]) (by simp [CopierPc.copying]) (by simp),
    h.locks.congr rfl rfl (by simp [Copier.held, hpc]),
    h.descs.congr rfl fun fd d t hd _ => ⟨d, hd, rfl, rfl⟩, ?_, h.fault⟩
  · refine h.refs.counted.add (i := none) (by simp [holdsRef, hpc, CopierPc.holds]) fun p => ?_
    cases p with
    | none => simp [holdsRef, CopierPc.holds]
    | some fd => simp [holdsRef, stageOf]
  · refine ⟨h.data.src_le, h.data.mirrored.congr (pendingOf_congr rfl) ?_, by simp, trivial,
      by simp⟩
    simp [CopierPc.finished, hpc]

/-- The source is opened at offset `0`. -/
theorem inv_copierOpen (h : Inv s) (hpc : s.copier.pc = .attached) :
    Inv { s with copier := { s.copier with pc := .opened, sourceOffset := 0 } } := by
  obtain ⟨hzero, hoff⟩ := h.refs.early (Or.inl (by rw [hpc]; rfl))
  refine ⟨h.refs.copier ?_ rfl rfl rfl rfl (fun hd _ _ => ⟨hd, rfl⟩) (fun _ => ⟨hzero, hoff⟩)
    (by simp [CopierPc.copying]) (by simp [CopierPc.copying]) (by simp),
    h.locks.congr rfl rfl (by simp [Copier.held, hpc]),
    h.descs.congr rfl fun fd d t hd _ => ⟨d, hd, rfl, rfl⟩, ?_, h.fault⟩
  · exact h.refs.counted.congr (holdsRef_copier rfl (by simp [hpc, CopierPc.holds]))
  · refine ⟨h.data.src_le, h.data.mirrored.congr (pendingOf_congr rfl) ?_, by simp, rfl, by simp⟩
    simp [CopierPc.finished, hpc]

/-- The section with `lstat` and `try_to_create_destination_file`. -/
theorem inv_copierCreate (h : Inv s) (hpc : s.copier.pc = .opened) :
    Inv { tryToCreateDestinationFile s with copier := { s.copier with pc := .created } } := by
  obtain ⟨hc, hsome⟩ := inv_tryToCreateDestinationFile h
  have hsource := h.data.sourceOffset
  rw [hpc] at hsource
  obtain ⟨dest, fresh, hframe⟩ := tryToCreateDestinationFile_frame s
  rw [hframe] at hc hsome ⊢
  obtain ⟨hzero, hoff⟩ := hc.refs.early (Or.inl (show s.copier.pc.early = true by rw [hpc]; rfl))
  refine ⟨hc.refs.copier ?_ rfl rfl rfl rfl (fun _ _ hd => absurd hd hsome)
    (fun _ => ⟨hzero, hoff⟩) (fun _ => hsome) (by simp [CopierPc.copying]) (by simp),
    hc.locks.congr rfl rfl (by simp [Copier.held, hpc]),
    hc.descs.congr rfl fun fd d t hd _ => ⟨d, hd, rfl, rfl⟩, ?_, h.fault⟩
  · exact hc.refs.counted.congr (holdsRef_copier rfl (by simp [hpc, CopierPc.holds]))
  · refine ⟨h.data.src_le, h.data.mirrored.congr (pendingOf_congr rfl) ?_, by simp, hsource,
      by simp⟩
    simp [CopierPc.finished, hpc]

/-- `copy_file_data` starts at the beginning of both files. -/
theorem inv_copierEnter (h : Inv s) (hpc : s.copier.pc = .created) :
    Inv { s with copier := { s.copier with pc := .loop, totalWrittenThisFile := 0 } } := by
  obtain ⟨hzero, hoff⟩ := h.refs.early (Or.inr hpc)
  have hsome := h.refs.made (Or.inl hpc)
  have hsource := h.data.sourceOffset
  rw [hpc] at hsource
  refine ⟨h.refs.copier ?_ rfl rfl rfl rfl (fun _ hp _ => by rw [hpc] at hp; cases hp)
    (by simp [CopierPc.early]) (fun _ => hsome) (fun _ => hoff) (by simp),
    h.locks.congr rfl rfl (by simp [Copier.held, hpc]),
    h.descs.congr rfl fun fd d t hd _ => ⟨d, hd, rfl, rfl⟩, ?_, h.fault⟩
  · exact h.refs.counted.congr (holdsRef_copier rfl (by simp [hpc, CopierPc.holds]))
  · have hm := h.data.mirrored
    rw [hzero] at hm
    refine ⟨h.data.src_le, hm.congr (pendingOf_congr rfl) ?_, by simp, hsource, by simp⟩
    simp [CopierPc.finished, hpc]

/-- `lock_range` around the next chunk. -/
theorem inv_copierLock (h : Inv s) (hpc : s.copier.pc = .loop) {l : List Range}
    (hl : lockRange s.lockedRanges ⟨s.copier.totalWrittenThisFile,
      s.copier.totalWrittenThisFile + bufSize⟩ = some l) :
    Inv { s with
      lockedRanges := l
      copier := { s.copier with pc := .locked, lockStart := s.copier.totalWrittenThisFile } } := by
  have hcopying : s.copier.pc.copying = true := by rw [hpc]; rfl
  have hsource := h.data.sourceOffset
  rw [hpc] at hsource
  refine ⟨h.refs.copier ?_ rfl rfl rfl rfl (fun _ hp _ => by rw [hpc] at hp; cases hp)
    (by simp [CopierPc.early]) (fun _ => h.refs.made (Or.inr hcopying))
    (fun _ => h.refs.offset hcopying) (by simp),
    h.locks.copierLock rfl (by simp [Copier.held, hpc]) rfl hl,
    h.descs.congr rfl fun fd d t hd _ => ⟨d, hd, rfl, rfl⟩, ?_, h.fault⟩
  · exact h.refs.counted.congr (holdsRef_copier rfl (by simp [hpc, CopierPc.holds]))
  · refine ⟨h.data.src_le, h.data.mirrored.congr (pendingOf_congr rfl) ?_, fun _ => rfl, hsource,
      by simp⟩
    simp [CopierPc.finished, hpc]

/-- The read returns `0`: everything up to the end of the source is copied. -/
theorem inv_copierEof (h : Inv s) (hpc : s.copier.pc = .locked)
    (heof : s.src.len ≤ s.copier.sourceOffset) :
    Inv { s with
      copier := { s.copier with
        pc := .wrote 0, dest := s.destination.map DestinationFile.id } } := by
  have hcopying : s.copier.pc.copying = true := by rw [hpc]; rfl
  have hsource := h.data.sourceOffset
  rw [hpc] at hsource
  refine ⟨h.refs.copier ?_ rfl rfl rfl rfl (fun _ hp _ => by rw [hpc] at hp; cases hp)
    (by simp [CopierPc.early]) (fun _ => h.refs.made (Or.inr hcopying))
    (fun _ => h.refs.offset hcopying) (by simp),
    h.locks.congr rfl rfl (by simp [Copier.held, Copier.range, hpc]),
    h.descs.congr rfl fun fd d t hd _ => ⟨d, hd, rfl, rfl⟩, ?_, h.fault⟩
  · exact h.refs.counted.congr (holdsRef_copier rfl (by simp [hpc, CopierPc.holds]))
  · have hsource : s.copier.sourceOffset = s.copier.totalWrittenThisFile := hsource
    refine ⟨h.data.src_le, (h.data.mirrored.finish (by omega)).congr (pendingOf_congr rfl) ?_,
      by simp, hsource, by simp⟩
    simp [CopierPc.finished]

/-- A read of `n` bytes, short or not. -/
theorem inv_copierRead (h : Inv s) (hpc : s.copier.pc = .locked) {n : Nat} (hn : 0 < n)
    (hsize : n ≤ bufSize) (hlen : s.copier.sourceOffset + n ≤ s.src.len) :
    Inv { s with
      copier := { s.copier with
        pc := .writing (s.src.read s.copier.sourceOffset n)
        sourceOffset := s.copier.sourceOffset + n
        dest := s.destination.map DestinationFile.id } } := by
  have hcopying : s.copier.pc.copying = true := by rw [hpc]; rfl
  have hstart := h.data.lockStart (Or.inl hpc)
  have hsource := h.data.sourceOffset
  rw [hpc] at hsource
  have hsource : s.copier.sourceOffset = s.copier.totalWrittenThisFile := hsource
  refine ⟨h.refs.copier ?_ rfl rfl rfl rfl (fun _ hp _ => by rw [hpc] at hp; cases hp)
    (by simp [CopierPc.early]) (fun _ => h.refs.made (Or.inr hcopying))
    (fun _ => h.refs.offset hcopying) (fun _ _ => rfl),
    h.locks.congr rfl rfl (by simp [Copier.held, Copier.range, hpc]),
    h.descs.congr rfl fun fd d t hd _ => ⟨d, hd, rfl, rfl⟩, ?_, h.fault⟩
  · exact h.refs.counted.congr (holdsRef_copier rfl (by simp [hpc, CopierPc.holds]))
  · refine ⟨h.data.src_le, h.data.mirrored.congr (pendingOf_congr rfl) ?_, fun _ => hstart, ?_, ?_⟩
    · simp [CopierPc.finished, hpc]
    · simp only [Content.read_length, hsource]
    · intro buf hbuf
      simp only [CopierPc.writing.injEq] at hbuf
      subst hbuf
      rw [hsource] at hlen ⊢
      refine ⟨?_, ?_, ?_, ?_⟩
      · rw [← List.length_pos_iff, Content.read_length]
        exact hn
      · rw [Content.read_length]
        exact hsize
      · rw [Content.read_length]
        exact hlen
      · intro i hi
        rw [Content.read_length] at hi
        exact (Content.read_getD hi).symm

/-- The chunk is written at the offset of the destination's descriptor, which is the
frontier. -/
theorem inv_copierWrite (h : Inv s) {buf : List UInt8} (hpc : s.copier.pc = .writing buf)
    {d : DestinationFile} (hd : s.destination = some d) :
    Inv { s with
      dst := s.dst.write d.offset buf
      destination := some { d with offset := d.offset + buf.length }
      copier := { s.copier with
        pc := .wrote buf.length
        totalWrittenThisFile := s.copier.totalWrittenThisFile + buf.length } } := by
  have hcopying : s.copier.pc.copying = true := by rw [hpc]; rfl
  obtain ⟨hne, -, hlen, hbyte⟩ := h.data.chunk buf hpc
  have hoff := h.refs.offset hcopying d hd
  have hsource := h.data.sourceOffset
  rw [hpc] at hsource
  refine ⟨h.refs.copier ?_ rfl rfl rfl (by rw [hd]; rfl)
    (fun _ hp _ => by rw [hpc] at hp; cases hp) (by simp [CopierPc.early]) (by simp) ?_ (by simp),
    h.locks.congr rfl rfl (by simp [Copier.held, Copier.range, hpc]),
    h.descs.congr rfl fun fd d t hd _ => ⟨d, hd, rfl, rfl⟩, ?_, h.fault⟩
  · exact h.refs.counted.congr (holdsRef_copier rfl (by simp [hpc, CopierPc.holds]))
  · intro _ d' hd'
    cases hd'
    simp only [hoff]
  · refine ⟨h.data.src_le, ?_, by simp, hsource, by simp⟩
    rw [hoff]
    refine (h.data.mirrored.chunk hne hlen hbyte).congr (pendingOf_congr rfl) ?_
    simp [CopierPc.finished, hpc, hne]

/-- `unlock_range` after the chunk: the pass is done at the end of the source, else it
goes on. -/
theorem inv_copierUnlock (h : Inv s) {n : Nat} (hpc : s.copier.pc = .wrote n) :
    Inv { unlock s s.copier.range with
      copier := { s.copier with pc := if n = 0 then .copied true else .loop } } := by
  have hcopying : s.copier.pc.copying = true := by rw [hpc]; rfl
  have hsource := h.data.sourceOffset
  rw [hpc] at hsource
  obtain ⟨l, hunlock, hlocks⟩ := h.locks.copierUnlock (by simp [Copier.held, hpc])
    (c := { s.copier with pc := if n = 0 then .copied true else .loop })
    (by simp only [Copier.held]; split_ifs <;> rfl)
  rw [hunlock]
  refine ⟨h.refs.copier ?_ rfl rfl rfl rfl (fun _ hp _ => by rw [hpc] at hp; cases hp) ?_
    (fun _ => h.refs.made (Or.inr hcopying)) (fun _ => h.refs.offset hcopying) ?_, hlocks,
    h.descs.congr rfl fun fd d t hd _ => ⟨d, hd, rfl, rfl⟩, ?_, h.fault⟩
  · refine h.refs.counted.congr (holdsRef_copier rfl ?_)
    split_ifs <;> simp [hpc, CopierPc.holds]
  · split_ifs <;> simp [CopierPc.early]
  · split_ifs <;> simp
  · refine ⟨h.data.src_le, h.data.mirrored.congr (pendingOf_congr rfl) ?_, ?_, ?_, ?_⟩
    · split_ifs with hn <;> simp [CopierPc.finished, hpc, hn]
    · split_ifs <;> simp
    · split_ifs with hn
      · trivial
      · exact hsource
    · split_ifs <;> simp

/-- The pass ends early while the chunk's range is locked. -/
theorem inv_copierAborted (h : Inv s) (hpc : s.copier.pc = .aborted) :
    Inv { unlock s s.copier.range with copier := { s.copier with pc := .returned false } } := by
  have hcopying : s.copier.pc.copying = true := by rw [hpc]; rfl
  obtain ⟨l, hunlock, hlocks⟩ := h.locks.copierUnlock (by simp [Copier.held, hpc])
    (c := { s.copier with pc := .returned false }) rfl
  rw [hunlock]
  refine ⟨h.refs.copier ?_ rfl rfl rfl rfl (fun _ hp _ => by rw [hpc] at hp; cases hp)
    (by simp [CopierPc.early]) (fun _ => h.refs.made (Or.inr hcopying))
    (fun _ => h.refs.offset hcopying) (by simp), hlocks,
    h.descs.congr rfl fun fd d t hd _ => ⟨d, hd, rfl, rfl⟩, ?_, h.fault⟩
  · exact h.refs.counted.congr (holdsRef_copier rfl (by simp [hpc, CopierPc.holds]))
  · refine ⟨h.data.src_le, h.data.mirrored.congr (pendingOf_congr rfl) ?_, by simp, trivial,
      by simp⟩
    simp [CopierPc.finished, hpc]

/-- A step of the copier between two places where it holds no range and is not in
`copy_file_data` afterwards. -/
theorem inv_copierGoto (h : Inv s) {pc : CopierPc} (hheld : s.copier.held = none)
    (hholds : s.copier.pc.holds = true ∧ pc.holds = true)
    (hfin : pc.finished = s.copier.pc.finished) (hnot : s.copier.pc.early = false)
    (hpc : ∃ eof, pc = .returned eof ∨ pc = .closed eof ∨ pc = .copied eof) :
    Inv { s with copier := { s.copier with pc } } := by
  obtain ⟨eof, hpc⟩ := hpc
  refine ⟨h.refs.copier ?_ rfl rfl rfl rfl (fun _ hp _ => by rw [hnot] at hp; cases hp) ?_ ?_ ?_ ?_,
    h.locks.congr rfl rfl ?_, h.descs.congr rfl fun fd d t hd _ => ⟨d, hd, rfl, rfl⟩,
    ⟨h.data.src_le, h.data.mirrored.congr (pendingOf_congr rfl) (by rw [hfin]), ?_, ?_, ?_⟩,
    h.fault⟩
  · exact h.refs.counted.congr (holdsRef_copier rfl (by rw [hholds.1, hholds.2]))
  · rcases hpc with rfl | rfl | rfl <;> simp [CopierPc.early]
  · rcases hpc with rfl | rfl | rfl <;> simp [CopierPc.copying]
  · rcases hpc with rfl | rfl | rfl <;> simp [CopierPc.copying]
  · rcases hpc with rfl | rfl | rfl <;> simp
  · rw [hheld]
    rcases hpc with rfl | rfl | rfl <;> rfl
  · rcases hpc with rfl | rfl | rfl <;> simp
  · rcases hpc with rfl | rfl | rfl <;> trivial
  · rcases hpc with rfl | rfl | rfl <;> simp

/-- The section after the copy that tries to remove the destination. -/
theorem inv_copierUnhook (h : Inv s) {eof : Bool} (hpc : s.copier.pc = .copied eof) :
    Inv { tryToRemoveDestination s with copier := { s.copier with pc := .returned eof } } := by
  have hr := inv_tryToRemoveDestination h (p := none)
    (show s.copier.pc.holds = true by rw [hpc]; rfl) (by simp)
    (by simp [hpc, CopierPc.copying])
  obtain ⟨dest, hdest⟩ := tryToRemoveDestination_frame s
  rw [hdest] at hr ⊢
  have hcop : ({ s with destination := dest } : State).copier.pc = .copied eof := hpc
  refine inv_copierGoto hr ?_ ⟨by rw [hcop]; rfl, rfl⟩ (by rw [hcop]; rfl) (by rw [hcop]; rfl)
    ⟨eof, Or.inl rfl⟩
  simp only [Copier.held, hpc]

/-- `try_to_remove_locked` at the end of the pass. -/
theorem inv_copierRelease (h : Inv s) {eof : Bool} (hpc : s.copier.pc = .closed eof) :
    Inv { tryToRemoveLocked s with copier := { s.copier with pc := .over eof } } := by
  have hgiven : Inv { s with
      referenceCount := s.referenceCount - 1
      copier := { s.copier with pc := .over eof } } := by
    refine ⟨h.refs.copier ?_ rfl rfl rfl rfl (fun _ hp _ => by rw [hpc] at hp; cases hp)
      (by simp [CopierPc.early]) (by simp [CopierPc.copying]) (by simp [CopierPc.copying])
      (by simp), h.locks.congr rfl rfl (by simp [Copier.held, hpc]),
      h.descs.congr rfl fun fd d t hd _ => ⟨d, hd, rfl, rfl⟩, ?_, h.fault⟩
    · refine h.refs.counted.remove (i := none) (by simp [holdsRef, hpc, CopierPc.holds])
        fun p => ?_
      cases p with
      | none => simp [holdsRef, CopierPc.holds]
      | some fd => simp [holdsRef, stageOf]
    · refine ⟨h.data.src_le, h.data.mirrored.congr (pendingOf_congr rfl) ?_, by simp, trivial,
        by simp⟩
      simp [CopierPc.finished, hpc]
  obtain ⟨dest, l, hframe⟩ := tryToRemoveLocked_frame s
  have hremoved := inv_tryToRemoveLocked hgiven rfl rfl rfl
  rw [hframe] at hremoved ⊢
  exact hremoved

end

/-- Every step of the pass keeps the invariant. -/
theorem inv_stepCopier {s s' : State} {n : Nat} (h : Inv s) (hstep : stepCopier s n = some s') :
    Inv s' := by
  simp only [stepCopier] at hstep
  split at hstep
  case h_1 hpc =>
    cases hstep
    exact inv_copierAttach h hpc
  case h_2 hpc =>
    cases hstep
    exact inv_copierOpen h hpc
  case h_3 hpc =>
    cases hstep
    obtain ⟨dest, fresh, hframe⟩ := tryToCreateDestinationFile_frame s
    have := inv_copierCreate h hpc
    rw [hframe] at this ⊢
    exact this
  case h_4 hpc =>
    cases hstep
    exact inv_copierEnter h hpc
  case h_5 hpc =>
    obtain ⟨l, hl, rfl⟩ := Option.map_eq_some_iff.mp hstep
    exact inv_copierLock h hpc hl
  case h_6 hpc =>
    split at hstep
    · rename_i heof
      split at hstep
      · cases hstep
        exact inv_copierEof h hpc heof
      · cases hstep
    · split at hstep
      · rename_i hn
        cases hstep
        exact inv_copierRead h hpc hn.1 hn.2.1 hn.2.2
      · cases hstep
  case h_7 buf hpc =>
    have hsome := h.refs.made (Or.inr (by rw [hpc]; rfl))
    obtain ⟨d, hd⟩ := Option.ne_none_iff_exists'.mp hsome
    have hdest := h.refs.writing buf hpc
    rw [hd] at hdest
    simp only [hd, hdest, Option.map_some, if_true, Option.some.injEq] at hstep
    subst hstep
    have hwrite := inv_copierWrite h hpc hd
    simpa only [hdest, Option.map_some] using hwrite
  case h_8 m hpc =>
    cases hstep
    have hframe : (unlock s s.copier.range).copier = s.copier := by
      simp only [unlock]
      split <;> rfl
    rw [hframe]
    exact inv_copierUnlock h hpc
  case h_9 hpc =>
    cases hstep
    have hframe : (unlock s s.copier.range).copier = s.copier := by
      simp only [unlock]
      split <;> rfl
    rw [hframe]
    exact inv_copierAborted h hpc
  case h_10 eof hpc =>
    cases hstep
    obtain ⟨dest, hframe⟩ := tryToRemoveDestination_frame s
    have := inv_copierUnhook h hpc
    rw [hframe] at this ⊢
    exact this
  case h_11 eof hpc =>
    cases hstep
    exact inv_copierGoto h (by simp [Copier.held, hpc]) ⟨by rw [hpc]; rfl, rfl⟩ (by rw [hpc]; rfl)
      (by rw [hpc]; rfl) ⟨eof, Or.inr (Or.inl rfl)⟩
  case h_12 eof hpc =>
    cases hstep
    obtain ⟨dest, l, hframe⟩ := tryToRemoveLocked_frame s
    have := inv_copierRelease h hpc
    rw [hframe] at this ⊢
    exact this
  case h_13 => cases hstep

theorem inv_abortCopier {s s' : State} {disabled : Bool} (h : Inv s)
    (hstep : abortCopier s disabled = some s') : Inv s' := by
  simp only [abortCopier] at hstep
  split at hstep
  case h_1 buf hpc =>
    cases hstep
    have hcopying : s.copier.pc.copying = true := by rw [hpc]; rfl
    refine ⟨h.refs.copier ?_ rfl rfl rfl rfl (fun _ hp _ => by rw [hpc] at hp; cases hp)
      (by simp [CopierPc.early]) (fun _ => h.refs.made (Or.inr hcopying))
      (fun _ => h.refs.offset hcopying) (by simp),
      h.locks.congr rfl rfl (by simp [Copier.held, Copier.range, hpc]),
      h.descs.congr rfl fun fd d t hd _ => ⟨d, hd, rfl, rfl⟩, ?_, h.fault⟩
    · exact h.refs.counted.congr (holdsRef_copier rfl (by simp [hpc, CopierPc.holds]))
    · refine ⟨h.data.src_le, h.data.mirrored.congr (pendingOf_congr rfl) ?_, by simp, trivial,
        by simp⟩
      simp [CopierPc.finished, hpc]
  case h_2 hpc =>
    cases hstep
    exact inv_copierGoto h (by simp [Copier.held, hpc]) ⟨by rw [hpc]; rfl, rfl⟩ (by rw [hpc]; rfl)
      (by rw [hpc]; rfl) ⟨false, Or.inl rfl⟩
  case h_3 hpc =>
    cases hstep
    exact inv_copierGoto h (by simp [Copier.held, hpc]) ⟨by rw [hpc]; rfl, rfl⟩ (by rw [hpc]; rfl)
      (by rw [hpc]; rfl) ⟨false, Or.inr (Or.inr rfl)⟩
  case h_4 => cases hstep

end TokuBackup.Convergence
