import TokuBackup.Convergence.Model

/-!
# The invariant of one file under capture and copy

Three groups of facts, each about its own part of the state.

* `Refs`: the reference count counts the fds and the copier, so that the destination is
  removed only when nobody can be using it, and a usable fd always finds it, except before
  it is created for the first time, when the backup file is still empty.
* `Locks`: `m_locked_ranges` is exactly what the calls and the copier hold, and what they
  hold is disjoint.
* `Data`: the backup file follows the source in the sense of `Mirrored`, and the copier's
  three offsets stay in step.
-/

namespace TokuBackup.Convergence

open Kernel

/-! ## What the parties hold -/

/-- The effect whose range the call holds. -/
def Thread.effect? : Thread → Option Effect
  | .ranged _ e => some e
  | .wrote _ _ e => some e
  | .done _ e => some e
  | .fetched _ e _ => some e
  | .applied _ e => some e
  | _ => none

/-- The effect that has reached the source and may still reach the backup. -/
def Thread.pending : Thread → Option Effect
  | .wrote _ _ e => some e
  | .done _ e => some e
  | .fetched _ e (some _) => some e
  | _ => none

theorem Thread.effect_of_pending {th : Thread} {e : Effect} (h : th.pending = some e) :
    th.effect? = some e := by
  cases th with
  | fetched c e' dest =>
    cases dest with
    | none => cases h
    | some id => exact h
  | wrote fd buf e' => exact h
  | done c e' => exact h
  | _ => cases h

theorem Thread.call_of_effect {th : Thread} {e : Effect} (h : th.effect? = some e) :
    ∃ c, th.call? = some c := by
  cases th with
  | idle => cases h
  | called c => cases h
  | descLocked fd buf start => cases h
  | _ => exact ⟨_, rfl⟩

def Copier.held (c : Copier) : Option Range :=
  match c.pc with
  | .locked => some c.range
  | .writing _ => some c.range
  | .wrote _ => some c.range
  | .aborted => some c.range
  | _ => none

/-- The copier has a reference to the source file. -/
def CopierPc.holds : CopierPc → Bool
  | .start => false
  | .over _ => false
  | _ => true

/-- The copier has not created the destination yet. -/
def CopierPc.early : CopierPc → Bool
  | .start => true
  | .attached => true
  | .opened => true
  | _ => false

/-- The copier is in `copy_file_data`. -/
def CopierPc.copying : CopierPc → Bool
  | .loop => true
  | .locked => true
  | .writing _ => true
  | .wrote _ => true
  | .aborted => true
  | _ => false

/-- The copier has seen the end of the source. -/
def CopierPc.finished : CopierPc → Bool
  | .wrote n => n = 0
  | .copied eof => eof
  | .returned eof => eof
  | .closed eof => eof
  | .over eof => eof
  | _ => false

/-- The effect a party holds, by thread number. -/
def effectOf (s : State) (t : Nat) : Option Effect := s.threads[t]?.bind Thread.effect?

def pendingOf (s : State) (t : Nat) : Option Effect := s.threads[t]?.bind Thread.pending

/-- The range a party holds: the copier is `none`, thread `t` is `some t`. -/
def heldBy (s : State) : Option Nat → Option Range
  | none => s.copier.held
  | some t => (effectOf s t).map Effect.range

def stageOf (s : State) (fd : Nat) : Option FdStage := (s.fds fd).map Fd.stage

/-- Who is counted in the reference count: the copier is `none`, an fd is `some fd`. -/
def holdsRef (s : State) : Option Nat → Prop
  | none => s.copier.pc.holds = true
  | some fd => (stageOf s fd).any FdStage.holds = true

theorem holdsRef_of_usable {s : State} {fd : Nat} (h : stageOf s fd = some .usable) :
    holdsRef s (some fd) := by
  rw [holdsRef, h]
  rfl

/-! ## The three groups -/

structure Refs (s : State) : Prop where
  counted : Lib.Counted (holdsRef s) s.referenceCount
  usable : ∀ (t : Nat) (th : Thread) (c : Call), s.threads[t]? = some th → th.call? = some c →
    stageOf s c.fd = some .usable
  fresh : ∀ d, s.destination = some d → d.id < s.fresh
  fetched : ∀ (t : Nat) c e id, s.threads[t]? = some (Thread.fetched c e (some id)) →
    s.destination.map DestinationFile.id = some id
  present : s.destination = none →
    (∀ fd, stageOf s fd ≠ some .usable) ∨ s.dst = Content.empty ∧ s.copier.pc.early = true
  early : s.copier.pc.early = true ∨ s.copier.pc = .created →
    s.copier.totalWrittenThisFile = 0 ∧ ∀ d, s.destination = some d → d.offset = 0
  made : s.copier.pc = .created ∨ s.copier.pc.copying = true → s.destination ≠ none
  offset : s.copier.pc.copying = true →
    ∀ d, s.destination = some d → d.offset = s.copier.totalWrittenThisFile
  writing : ∀ buf, s.copier.pc = .writing buf →
    s.copier.dest = s.destination.map DestinationFile.id

structure Locks (s : State) : Prop where
  locked : Locked s.lockedRanges (heldBy s)
  disjoint : ∀ p q r r', p ≠ q → heldBy s p = some r → heldBy s q = some r' → r.Disjoint r'
  truncates : ∀ t t' l l', t ≠ t' → effectOf s t = some (.truncate l) →
    effectOf s t' = some (.truncate l') → llongMax ≤ l ∨ llongMax ≤ l' → l = l'

/-- `write` holds the description's mutex from reading the offset to the real write, so it
locks the range that the kernel writes to. -/
structure Descs (s : State) : Prop where
  locked : ∀ (t : Nat) fd buf start, s.threads[t]? = some (Thread.descLocked fd buf start) →
    ∃ d, s.fds fd = some d ∧ d.lock = some t ∧ d.offset = start
  ranged : ∀ (t : Nat) fd buf e, s.threads[t]? = some (Thread.ranged (.write fd buf) e) →
    ∃ d, s.fds fd = some d ∧ d.lock = some t ∧ e = .write d.offset buf
  wrote : ∀ (t : Nat) fd buf e, s.threads[t]? = some (Thread.wrote fd buf e) →
    ∃ d, s.fds fd = some d ∧ d.lock = some t
  pwrite : ∀ (t : Nat) fd buf offset e,
    s.threads[t]? = some (Thread.ranged (.pwrite fd buf offset) e) → e = .write offset buf
  fits : ∀ t e, pendingOf s t = some e → e.fits = true

structure Data (s : State) : Prop where
  src_le : s.src.len ≤ llongMax
  mirrored : Mirrored s.src s.dst (pendingOf s) s.copier.totalWrittenThisFile
    (s.copier.pc.finished = true)
  lockStart : s.copier.pc = .locked ∨ (∃ buf, s.copier.pc = .writing buf) →
    s.copier.lockStart = s.copier.totalWrittenThisFile
  sourceOffset : match s.copier.pc with
    | .opened => s.copier.sourceOffset = 0
    | .created => s.copier.sourceOffset = 0
    | .loop => s.copier.sourceOffset = s.copier.totalWrittenThisFile
    | .locked => s.copier.sourceOffset = s.copier.totalWrittenThisFile
    | .writing buf => s.copier.sourceOffset = s.copier.totalWrittenThisFile + buf.length
    | .wrote _ => s.copier.sourceOffset = s.copier.totalWrittenThisFile
    | _ => True
  chunk : ∀ buf, s.copier.pc = .writing buf → buf ≠ [] ∧ buf.length ≤ bufSize ∧
    s.copier.totalWrittenThisFile + buf.length ≤ s.src.len ∧
    ∀ i, i < buf.length → s.src.byte (s.copier.totalWrittenThisFile + i) = buf.getD i 0

structure Inv (s : State) : Prop where
  refs : Refs s
  locks : Locks s
  descs : Descs s
  data : Data s
  fault : s.fault = false

/-! ## One thread moves -/

theorem bind_set {β : Type} (f : Thread → Option β) {l : List Thread} {t : Nat} {th th' : Thread}
    (h : l[t]? = some th) :
    (fun t' => (l.set t th')[t']?.bind f) =
      Function.update (fun t' => l[t']?.bind f) t (f th') := by
  funext t'
  obtain ⟨hlt, -⟩ := List.getElem?_eq_some_iff.mp h
  by_cases ht : t' = t
  · subst ht
    rw [Function.update_self, List.getElem?_set_self hlt, Option.bind_some]
  · rw [Function.update_of_ne ht, List.getElem?_set_ne (Ne.symm ht)]

theorem set_thread_cases {l : List Thread} {t t' : Nat} {th : Thread} {th' : Thread}
    (h : (l.set t th)[t']? = some th') : (t' = t ∧ th' = th) ∨ (t' ≠ t ∧ l[t']? = some th') := by
  rw [List.getElem?_set] at h
  split at h
  · rename_i htt
    subst htt
    split at h
    · cases h
      exact Or.inl ⟨rfl, rfl⟩
    · cases h
  · rename_i htt
    exact Or.inr ⟨Ne.symm htt, h⟩

section

variable {s s' : State} {t : Nat} {th th' : Thread}

theorem effectOf_thread (ht : s.threads[t]? = some th) (hs : s'.threads = s.threads.set t th') :
    effectOf s' = Function.update (effectOf s) t th'.effect? := by
  unfold effectOf
  rw [hs]
  exact bind_set Thread.effect? ht

theorem pendingOf_thread (ht : s.threads[t]? = some th) (hs : s'.threads = s.threads.set t th') :
    pendingOf s' = Function.update (pendingOf s) t th'.pending := by
  unfold pendingOf
  rw [hs]
  exact bind_set Thread.pending ht

theorem effectOf_self (ht : s.threads[t]? = some th) : effectOf s t = th.effect? := by
  rw [effectOf, ht, Option.bind_some]

theorem pendingOf_self (ht : s.threads[t]? = some th) : pendingOf s t = th.pending := by
  rw [pendingOf, ht, Option.bind_some]

theorem effect_of_pending {e : Effect} (h : pendingOf s t = some e) : effectOf s t = some e := by
  rw [pendingOf, Option.bind_eq_some_iff] at h
  obtain ⟨th, hth, hp⟩ := h
  rw [effectOf_self hth]
  exact Thread.effect_of_pending hp

theorem heldBy_thread_ne (ht : s.threads[t]? = some th) (hs : s'.threads = s.threads.set t th')
    (hc : s'.copier = s.copier) {p : Option Nat} (hp : p ≠ some t) : heldBy s' p = heldBy s p := by
  cases p with
  | none => simp only [heldBy, hc]
  | some t' =>
    have hne : t' ≠ t := fun h => hp (by rw [h])
    simp only [heldBy, effectOf_thread ht hs, Function.update_of_ne hne]

theorem heldBy_thread_self (ht : s.threads[t]? = some th) (hs : s'.threads = s.threads.set t th') :
    heldBy s' (some t) = th'.effect?.map Effect.range := by
  simp only [heldBy, effectOf_thread ht hs, Function.update_self]

/-- A step of one thread that leaves the reference count, the destination and the copier
alone. -/
theorem Refs.thread (h : Refs s)
    (hs : s'.threads = s.threads.set t th')
    (hcall : th'.call? = none ∨ ∃ c, th'.call? = some c ∧ stageOf s c.fd = some .usable)
    (hfetch : ∀ c e id, th' = .fetched c e (some id) →
      s.destination.map DestinationFile.id = some id)
    (hstage : ∀ fd, stageOf s' fd = stageOf s fd) (hcount : s'.referenceCount = s.referenceCount)
    (hdest : s'.destination = s.destination) (hfresh : s'.fresh = s.fresh)
    (hcop : s'.copier = s.copier) (hdst : s.destination = none → s'.dst = s.dst) : Refs s' where
  counted := by
    rw [hcount]
    refine h.counted.congr fun p => ?_
    cases p with
    | none => simp only [holdsRef, hcop]
    | some fd => simp only [holdsRef, hstage]
  usable t' th'' c ht' hc := by
    rw [hs] at ht'
    rw [hstage]
    rcases set_thread_cases ht' with ⟨-, rfl⟩ | ⟨-, hold⟩
    · rcases hcall with hnone | ⟨c', hc', hu⟩
      · rw [hnone] at hc
        cases hc
      · cases hc.symm.trans hc'
        exact hu
    · exact h.usable t' th'' c hold hc
  fresh d hd := by
    rw [hfresh]
    exact h.fresh d (hdest ▸ hd)
  fetched t' c e id ht' := by
    rw [hs] at ht'
    rw [hdest]
    rcases set_thread_cases ht' with ⟨-, he⟩ | ⟨-, hold⟩
    · exact hfetch c e id he.symm
    · exact h.fetched t' c e id hold
  present hd := by
    rw [hdest] at hd
    rw [hdst hd, hcop]
    rcases h.present hd with hno | hearly
    · exact Or.inl fun fd => by rw [hstage]; exact hno fd
    · exact Or.inr hearly
  early hp := by
    rw [hcop] at hp ⊢
    rw [hdest]
    exact h.early hp
  made hp := by
    rw [hdest]
    exact h.made (hcop ▸ hp)
  offset hp := by
    rw [hcop] at hp ⊢
    rw [hdest]
    exact h.offset hp
  writing buf hp := by
    rw [hcop] at hp ⊢
    rw [hdest]
    exact h.writing buf hp

/-- The thread keeps the range it holds, or keeps holding none. -/
theorem Locks.thread (h : Locks s) (ht : s.threads[t]? = some th)
    (hs : s'.threads = s.threads.set t th') (he : th'.effect? = th.effect?)
    (hcop : s'.copier = s.copier) (hl : s'.lockedRanges = s.lockedRanges) : Locks s' := by
  have heff : effectOf s' = effectOf s := by
    rw [effectOf_thread ht hs, he, ← effectOf_self ht, Function.update_eq_self]
  have hheld : heldBy s' = heldBy s := by
    funext p
    cases p with
    | none => simp only [heldBy, hcop]
    | some t' => simp only [heldBy, heff]
  exact ⟨by rw [hl, hheld]; exact h.locked, by rw [hheld]; exact h.disjoint,
    by rw [heff]; exact h.truncates⟩

/-- The thread locks the range of `e`. -/
theorem Locks.lock (h : Locks s) (ht : s.threads[t]? = some th)
    (hs : s'.threads = s.threads.set t th') {e : Effect} (he : th.effect? = none)
    (he' : th'.effect? = some e) (hcop : s'.copier = s.copier)
    (hl : lockRange s.lockedRanges e.range = some s'.lockedRanges)
    (htr : ∀ l, e = .truncate l → ∀ t' l', effectOf s t' = some (.truncate l') →
      llongMax ≤ l ∨ llongMax ≤ l' → l = l') : Locks s' := by
  obtain ⟨-, hfree⟩ := lockRange_some hl
  have hself := heldBy_thread_self ht hs
  rw [he', Option.map_some] at hself
  have hother : ∀ q, q ≠ some t → heldBy s' q = heldBy s q :=
    fun q hq => heldBy_thread_ne ht hs hcop hq
  have hnone : heldBy s (some t) = none := by
    simp only [heldBy, effectOf_self ht, he, Option.map_none]
  refine ⟨h.locked.lock hnone hl hself hother, ?_, ?_⟩
  · intro p q r r' hpq hp hq
    by_cases hpt : p = some t
    · subst hpt
      rw [hother q (Ne.symm hpq)] at hq
      cases hself.symm.trans hp
      exact (hfree r' (h.locked.mem hq)).symm
    · rw [hother p hpt] at hp
      by_cases hqt : q = some t
      · subst hqt
        cases hself.symm.trans hq
        exact hfree r (h.locked.mem hp)
      · rw [hother q hqt] at hq
        exact h.disjoint p q r r' hpq hp hq
  · intro t₁ t₂ l l' hne h₁ h₂ hmax
    rw [effectOf_thread ht hs, he'] at h₁ h₂
    rcases Mirrored.update_some h₁ with ⟨rfl, he₁⟩ | ⟨hne₁, h₁⟩
    · rw [Function.update_of_ne (Ne.symm hne)] at h₂
      cases he₁
      exact htr l rfl t₂ l' h₂ hmax
    · rcases Mirrored.update_some h₂ with ⟨rfl, he₂⟩ | ⟨-, h₂⟩
      · cases he₂
        rw [Function.update_of_ne hne₁] at h₁
        exact (htr l' rfl t₁ l h₁ hmax.symm).symm
      · exact h.truncates t₁ t₂ l l' hne h₁ h₂ hmax

/-- The thread unlocks its range; this never takes the fatal branch. -/
theorem Locks.unlock (h : Locks s) (ht : s.threads[t]? = some th) {e : Effect}
    (he : th.effect? = some e) (hf : s.fault = false)
    (hs' : s' = { unlock s e.range with threads := s.threads.set t .idle }) :
    Locks s' ∧ s'.fault = false ∧ s'.lockedRanges =
      (Convergence.unlock s e.range).lockedRanges := by
  have hheld : heldBy s (some t) = some e.range := by
    simp only [heldBy, effectOf_self ht, he, Option.map_some]
  have hs : s'.threads = s.threads.set t .idle := by rw [hs']
  have hcop : s'.copier = s.copier := by
    rw [hs']
    simp only [Convergence.unlock]
    split <;> rfl
  have hself := heldBy_thread_self ht hs
  have hother : ∀ q, q ≠ some t → heldBy s' q = heldBy s q :=
    fun q hq => heldBy_thread_ne ht hs hcop hq
  obtain ⟨l', hl', hlocked⟩ := h.locked.unlock hheld hself hother
  have hranges : s'.lockedRanges = l' := by
    rw [hs']
    simp only [Convergence.unlock, hl']
  refine ⟨⟨by rw [hranges]; exact hlocked, ?_, ?_⟩, ?_, by rw [hs']⟩
  · intro p q r r' hpq hp hq
    have hpt : p ≠ some t := by
      rintro rfl
      cases hself.symm.trans hp
    have hqt : q ≠ some t := by
      rintro rfl
      cases hself.symm.trans hq
    rw [hother p hpt] at hp
    rw [hother q hqt] at hq
    exact h.disjoint p q r r' hpq hp hq
  · intro t₁ t₂ l l'' hne h₁ h₂ hmax
    rw [effectOf_thread ht hs] at h₁ h₂
    rcases Mirrored.update_some h₁ with ⟨-, he₁⟩ | ⟨-, h₁⟩
    · cases he₁
    · rcases Mirrored.update_some h₂ with ⟨-, he₂⟩ | ⟨-, h₂⟩
      · cases he₂
      · exact h.truncates t₁ t₂ l l'' hne h₁ h₂ hmax
  · rw [hs']
    simp only [Convergence.unlock, hl', hf]

/-- What is pending at the same time as the effect of thread `t` is compatible with it. -/
theorem Locks.compatible (h : Locks s) (hd : Descs s) {e : Effect} (he : effectOf s t = some e)
    (hfits : e.fits = true) {t' : Nat} {e' : Effect} (hne : t' ≠ t)
    (hp : pendingOf s t' = some e') : e.Compatible e' := by
  have he' := effect_of_pending hp
  apply Effect.compatible_of_disjoint hfits (hd.fits t' e' hp)
  · refine h.disjoint (some t) (some t') _ _ (fun hx => hne (Option.some.inj hx).symm) ?_ ?_
    · simp only [heldBy, he, Option.map_some]
    · simp only [heldBy, he', Option.map_some]
  · rintro l l' rfl rfl hmax
    exact h.truncates t t' l l' (Ne.symm hne) he he' hmax

end

end TokuBackup.Convergence
