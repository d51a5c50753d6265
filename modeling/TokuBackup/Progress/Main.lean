import TokuBackup.Progress.Polls

/-!
# Exactly the covered sets keep the progress in its range

For the other direction a run is built that copies one directory after the other without a
failure, and in which the throttle makes the copier wait after each chunk. So the callback is
called with the bytes of the first directories complete, and with the sum of the last of them.
-/

namespace TokuBackup.Progress

open Kernel Lib
open Copier (todoName entryPath)

variable {D : DirectorySet} {tree : Path → SourceTree} {s s' : State}
  {pending : List (List Path)} {rel : List Path}

/-! ## Nothing excluded -/

/-- The callback knows what has been backed up. -/
def Recorded (s : State) : Prop := (s.totalBytesBackedUp, s.totalBytesToBackUp) ∈ s.polls

theorem recorded_poll (s : State) : Recorded s.poll :=
  List.mem_append_right _ (List.mem_singleton_self _)

/-- What a part of the run leads to: more of the directory is done, and recorded. -/
def Onward (D : DirectorySet) (tree : Path → SourceTree) (s : State)
    (pending : List (List Path)) : Prop :=
  ∃ as s' pending', run (step D tree) s as = some s' ∧ Working D tree s' pending' ∧
    s'.index = s.index ∧ Recorded s' ∧ weight D tree s' pending' < weight D tree s pending ∧
    (s'.pc = .loop ∨ ∃ c, s'.pc = .reading c)

theorem run_one {a : Action} (h : step D tree s a = some s') :
    run (step D tree) s [a] = some s' :=
  run_cons_some.mpr ⟨s', h, rfl⟩

/-- An entry of the todo list is polled and handled. -/
theorem Working.onward_pop (h : Working D tree s (rel :: pending)) (hpc : s.pc = .loop) :
    Onward D tree s (rel :: pending) := by
  obtain ⟨d, hd⟩ : ∃ d, D.dirs[s.index]? = some d := ⟨_, List.getElem?_eq_getElem h.index⟩
  obtain ⟨t, ht⟩ := h.found rel List.mem_cons_self _ hd
  have hwf : (tree d.1).root.WellFormed := (tree d.1).wellFormed
  let s₁ : State := { s.poll with pc := .pop }
  have hpoll : step D tree s (.poll 0) = some s₁ := by
    simp only [step, stepPoll, hpc, h.todo, List.map_cons]
    rfl
  have h₁ : Working D tree s₁ (rel :: pending) :=
    h.within rfl rfl rfl trivial (by rw [hpc]; rfl)
  obtain ⟨entries, s', hs'⟩ := copyFullPath_some (D := D)
    (s := { s₁ with todo := pending.map todoName }) hwf ht
  have hpop : stepPop D tree s₁ entries = some s' := by
    have htodo : s₁.todo = todoName rel :: pending.map todoName := h.todo
    have hdir : D.dirs[s₁.index]? = some d := hd
    unfold stepPop
    rw [htodo, hdir]
    rw [← copyStrippedFile_eq (hwf.find ht).1] at hs'
    exact hs'
  have hp := popped_of_copyFullPath (hwf.find ht).1 ht hs'
  obtain ⟨pending', hW', hweight, hpc'⟩ := h₁.popped rfl hd hp
  have hless : weight D tree s₁ (rel :: pending) = weight D tree s (rel :: pending) := by
    rw [weight, weight, hpc]
    rfl
  have hframe : s'.index = s.index ∧ Recorded s' := by
    cases hp <;> exact ⟨rfl, recorded_poll s⟩
  exact ⟨[.poll 0, .pop entries], s', pending',
    run_cons_some.mpr ⟨s₁, hpoll, run_one hpop⟩, hW', hframe.1, hframe.2, hless ▸ hweight, hpc'⟩

/-- A chunk is read and written, with a poll before and one after the `write`; at the end of
the file there is nothing to do. -/
theorem Working.onward_read {c : Copying} (h : Working D tree s pending)
    (hpc : s.pc = .reading c) (hrec : Recorded s) : Onward D tree s pending := by
  have hcopies : c.offset ≤ c.size := by
    have hcopies := h.copies
    rw [hpc] at hcopies
    exact hcopies
  by_cases hend : c.offset = c.size
  · have hread : step D tree s (.read 0) = some { s with pc := .loop } := by
      simp only [step, stepRead, hpc]
      rw [if_pos ⟨Nat.zero_le _, hcopies, fun _ => hend⟩, if_pos trivial]
    refine ⟨[.read 0], _, pending, run_one hread, h.within rfl rfl rfl trivial ?_, rfl, hrec, ?_,
      Or.inl rfl⟩
    · rw [hpc]
      simp only [Pc.left, hend, Nat.sub_self]
    · rw [weight, weight, hpc]
      simp only [Pc.work]
      omega
  · have hbuf : 0 < Convergence.bufSize := by decide
    obtain ⟨n, hn⟩ : ∃ n, n = min Convergence.bufSize (c.size - c.offset) := ⟨_, rfl⟩
    have hpos : 0 < n := by omega
    have hle : n ≤ c.size - c.offset := by omega
    let c' : Copying := { c with offset := c.offset + n }
    let s₁ : State := { s with pc := .range c' n 0 }
    let s₂ : State := { s₁.poll with pc := .write c' n 0 }
    let s₃ : State := { s₂ with totalBytesBackedUp := s.totalBytesBackedUp + n, pc := .throttle c' }
    let s₄ : State := { s₃.poll with pc := .throttle c' }
    let s₅ : State := { s₄ with pc := .reading c' }
    have h₁ : step D tree s (.read n) = some s₁ := by
      simp only [step, stepRead, hpc]
      rw [if_pos ⟨by omega, by omega, by omega⟩, if_neg (by omega)]
    have h₂ : step D tree s₁ (.poll 0) = some s₂ := rfl
    have h₃ : step D tree s₂ (.write n) = some s₃ := by
      simp only [step, stepWrite, s₂]
      rw [if_pos (by omega), if_neg (by omega)]
      rfl
    have h₄ : step D tree s₃ (.poll 0) = some s₄ := rfl
    have h₅ : step D tree s₄ .next = some s₅ := rfl
    refine ⟨[.read n, .poll 0, .write n, .poll 0, .next], s₅, pending,
      run_cons_some.mpr ⟨s₁, h₁, run_cons_some.mpr ⟨s₂, h₂, run_cons_some.mpr ⟨s₃, h₃,
        run_cons_some.mpr ⟨s₄, h₄, run_one h₅⟩⟩⟩⟩, h.within rfl rfl rfl ?_ ?_, rfl,
      recorded_poll s₃, ?_, Or.inr ⟨c', rfl⟩⟩
    · change c.offset + n ≤ c.size
      omega
    · rw [hpc]
      change s.totalBytesBackedUp + n + (c.size - (c.offset + n)) = _
      simp only [Pc.left]
      omega
    · rw [weight, weight, hpc]
      change c.size - (c.offset + n) + 1 + _ < c.size - c.offset + 1 + _
      have hindex : s₅.index = s.index := rfl
      rw [hindex]
      omega

/-- The directory can be copied to its end, and then its bytes have been recorded. By
induction on what is left to do. -/
theorem Working.finish (h : Working D tree s pending)
    (hpc : s.pc = .loop ∨ ∃ c, s.pc = .reading c)
    (hrec : Recorded s ∨ s.pc = .loop ∧ pending ≠ []) :
    ∃ as s', run (step D tree) s as = some s' ∧ Inv D tree s' ∧ s'.pc = .next ∧
      s'.index = s.index + 1 ∧
      (bytesBefore D tree (s.index + 1), totalOf D tree s.index) ∈ s'.polls := by
  induction hm : weight D tree s pending using Nat.strongRecOn generalizing s pending with
  | ind m ih =>
    -- one part of the run, and then the rest
    have hgo : Onward D tree s pending → ∃ as s', run (step D tree) s as = some s' ∧
        Inv D tree s' ∧ s'.pc = .next ∧ s'.index = s.index + 1 ∧
        (bytesBefore D tree (s.index + 1), totalOf D tree s.index) ∈ s'.polls := by
      rintro ⟨as, s₁, pending₁, hrun, hW, hindex, hrec₁, hless, hpc₁⟩
      obtain ⟨bs, s', hrun', hrest⟩ := ih _ (hm ▸ hless) hW hpc₁ (Or.inl hrec₁) rfl
      rw [hindex] at hrest
      exact ⟨as ++ bs, s', run_trans hrun hrun', hrest⟩
    rcases hpc with hpc | ⟨c, hpc⟩
    · cases pending with
      | cons rel pending => exact hgo (h.onward_pop hpc)
      | nil =>
        have hrec : Recorded s := hrec.resolve_right fun hne => hne.2 rfl
        have hstep : step D tree s .next = some { s with index := s.index + 1, pc := .next } := by
          simp only [step, stepNext, hpc, h.todo, List.map_nil]
        refine ⟨[.next], _, run_one hstep, inv_step (.working [] h) hstep, rfl, rfl, ?_⟩
        have haccount := h.account
        rw [hpc] at haccount
        rw [← haccount, ← h.total]
        exact hrec
    · refine hgo (h.onward_read hpc (hrec.resolve_right fun hloop => ?_))
      rw [hpc] at hloop
      cases hloop.1

def oneFile : SourceTree where
  entries := [(['x'], .regular 2)]
  wellFormed := by
    refine .directory _ (by decide) (by decide) fun e he => ?_
    rw [List.mem_singleton.mp he]
    exact .regular 2

end TokuBackup.Progress
