import TokuBackup.Interpose.Spared

/-!
# Calls that fail, one by one

Each interposed call is judged; a run of calls on one fd, and of failing calls by path, is then
spared exactly when every call that fails meets its condition.
-/

namespace TokuBackup.Interpose

open Kernel Table Lib Prog
open DoBackup (Errno)

/-! ## What raises no error when the backup serves -/

/-- Neither a report nor a change of a description. -/
def Op.still : Op → Bool
  | .backupError _ _ => false
  | .fatalError _ _ => false
  | .mapPut _ _ => false
  | .mapErase _ => false
  | .incrementOffset _ _ => false
  | .seekDescription _ _ => false
  | _ => true

/-- The flags, the error and the descriptions are the same. -/
structure Still (s s' : Manager) : Prop extends SameFlags s s' where
  map : s'.map = s.map

theorem Still.refl (s : Manager) : Still s s := ⟨⟨rfl, rfl, rfl⟩, rfl⟩

theorem Still.trans {s s' s'' : Manager} (h : Still s s') (h' : Still s' s'') : Still s s'' :=
  ⟨h.toSameFlags.trans h'.toSameFlags, h'.map.trans h.map⟩

theorem Undisturbed.still {s s' : Manager} (h : Undisturbed s s') : Still s s' :=
  ⟨h.toSameFlags, h.map⟩

/-- The program raises no error as long as the calls on the backup succeed. -/
def Kept {α : Type} (p : CallM α) : Prop :=
  ∀ s, All managerHandler p s fun es _ s' => (∀ e ∈ es, Serves e) → Still s s'

section

variable {α β : Type}

theorem still_next {o : Op} (ho : o.still = true) (s : Manager) (r : o.Answer) :
    Still s (Op.next o s r) := by
  cases o with
  | backupError n text => cases ho
  | fatalError n text => cases ho
  | mapPut fd source => cases ho
  | mapErase fd => cases ho
  | incrementOffset fd n => cases ho
  | seekDescription fd n => cases ho
  | real c => exact (undisturbed_after s r).still
  | realpath site path => exact (undisturbed_after s r).still
  | fstat fd => exact (undisturbed_after s r).still
  | backup c => exact (undisturbed_after s r).still
  | _ => exact ⟨⟨rfl, rfl, rfl⟩, rfl⟩

theorem kept_pure (a : α) : Kept (pure a : CallM α) := fun s _ => Still.refl s

theorem kept_fail (e : Fault) : Kept (fail e : CallM α) := fun s _ => Still.refl s

/-- An answer that does not serve needs no treatment. -/
theorem kept_call {o : Op} {f : o.Answer → CallM β} (ho : o.still = true)
    (hf : ∀ r, Op.reply o = (fun _ => none) ∧ ¬ Serves ⟨o, r⟩ ∨ Kept (f r)) :
    Kept (call o >>= f) := by
  intro s
  rw [call_bind, all_step]
  have hflags := still_next ho s
  split
  · rename_i r hr
    rcases hf r with ⟨hnone, -⟩ | hkept
    · have : Op.reply o s = some r := hr
      rw [hnone] at this
      cases this
    · exact (hkept _).mono fun es x s' h hes => (hflags r).trans (h hes)
  · intro r _
    rcases hf r with ⟨-, hnot⟩ | hkept
    · have htrue : ∀ {p : CallM β} {s : Manager}, All managerHandler p s fun _ _ _ => True :=
        fun {p s} => all_iff.mpr fun _ _ _ _ => trivial
      exact htrue.mono fun es x s' _ hes => absurd (hes _ (List.mem_cons_self ..)) hnot
    · exact (hkept _).mono fun es x s' h hes =>
        (hflags r).trans (h fun e he => hes e (List.mem_cons_of_mem _ he))

theorem kept_step {o : Op} {f : o.Answer → CallM β} (ho : o.still = true)
    (hf : ∀ r, Kept (f r)) : Kept (call o >>= f) :=
  kept_call ho fun r => Or.inr (hf r)

theorem kept_last {o : Op} (ho : o.still = true) : Kept (call o : CallM o.Answer) :=
  kept_step (f := pure) ho kept_pure

theorem kept_backup {c : BackupCall} {f : Except Errno Nat → CallM β}
    (hf : ∀ r : Except Errno Nat, Serves ⟨.backup c, r⟩ → Kept (f r)) : Kept (backup c >>= f) := by
  refine kept_call rfl fun (r : Except Errno Nat) => ?_
  by_cases hr : Serves ⟨.backup c, r⟩
  · exact Or.inr (hf r hr)
  · exact Or.inl ⟨rfl, hr⟩

theorem Kept.bind {p : CallM α} {f : α → CallM β} (hp : Kept p) (hf : ∀ a, Kept (f a)) :
    Kept (p >>= f) := by
  intro s
  refine (hp s).bind (fun es e s' h => h) fun es a s' h => ?_
  refine (hf a s').mono fun es' x s'' h' hes => ?_
  rw [List.forall_mem_append] at hes
  exact (h hes.1).trans (h' hes.2)

theorem kept_withSession {body : DirectorySet → CallM Unit} (h : ∀ D, Kept (body D)) :
    Kept (withSession body) := by
  unfold withSession
  refine kept_step rfl fun _ => kept_step rfl fun D => ?_
  split
  · exact kept_last rfl
  · exact (h _).bind fun _ => kept_last rfl

theorem kept_pwriteLoop (d : DestinationFile) (buf : List UInt8) (fuel nbyte : Nat) {offset : Int}
    (hoffset : 0 ≤ offset) : Kept (pwriteLoop d buf fuel nbyte offset) := by
  induction fuel generalizing nbyte offset with
  | zero => exact kept_pure _
  | succ fuel ih =>
    rw [pwriteLoop]
    split
    · exact kept_pure _
    · refine kept_backup fun r hr => ?_
      obtain ⟨wr, rfl, hwr⟩ := hr hoffset
      dsimp only
      rw [if_neg (by omega)]
      exact ih _ (by omega)

theorem kept_captureWrite (file : Ptr) (buf : List UInt8) {offset : Int} (hoffset : 0 ≤ offset)
    (D : DirectorySet) : Kept (captureWrite file buf offset D) := by
  unfold captureWrite
  refine kept_step rfl fun d => ?_
  split
  · exact kept_pure _
  · exact (kept_pwriteLoop _ _ _ _ hoffset).bind fun _ => kept_pure _

theorem kept_captureFtruncate (file : Ptr) (length : Int) (D : DirectorySet) :
    Kept (captureFtruncate file length D) := by
  unfold captureFtruncate destinationTruncate
  refine kept_step rfl fun d => ?_
  split
  · exact kept_pure _
  · rw [Prog.bind_assoc]
    refine kept_backup fun r hr => ?_
    obtain ⟨n, rfl⟩ := hr
    exact kept_pure _

theorem kept_tryToRemoveDestination (file : Ptr) : Kept (tryToRemoveDestination file) := by
  unfold tryToRemoveDestination
  refine kept_step rfl fun d => ?_
  split
  · exact kept_pure _
  · refine kept_step rfl fun (n : Nat) => ?_
    split
    · exact kept_pure _
    · refine kept_backup fun r hr => ?_
      obtain ⟨v, rfl⟩ := hr
      exact kept_last rfl

theorem kept_tryToRemove (file : Ptr) : Kept (tryToRemove file) := by
  unfold tryToRemove removeReference tableRemove
  rw [Prog.bind_assoc]
  refine kept_step rfl fun (n : Nat) => Kept.bind ?_ fun _ => ?_
  · split
    · exact kept_last rfl
    · exact kept_fail _
  · refine kept_step rfl fun (n : Nat) => ?_
    split
    · refine (kept_tryToRemoveDestination file).bind fun _ => Kept.bind ?_ fun _ => kept_last rfl
      refine kept_step rfl fun n => ?_
      split
      · exact kept_fail _
      · exact kept_last rfl
    · exact kept_pure _

/-- After a `close` there is no description. -/
theorem kept_managerClose (fd : Nat) (s : Manager) :
    All managerHandler (managerClose fd) s fun es _ s' => (∀ e ∈ es, Serves e) →
      SameFlags s s' ∧ (s'.map fd = none ∨ s'.map = s.map) := by
  unfold managerClose
  cases hmap : s.map fd with
  | none => exact all_reply (reply_mapGet_none hmap) fun _ => ⟨⟨rfl, rfl, rfl⟩, Or.inr rfl⟩
  | some d =>
    refine all_reply (reply_mapGet hmap) ?_
    have hsession : Kept (withSession fun _ => lock .table >>= fun _ =>
        tryToRemoveDestination d.source >>= fun _ => unlock .table) :=
      kept_withSession fun _ => kept_step rfl fun _ =>
        (kept_tryToRemoveDestination _).bind fun _ => kept_last rfl
    have hrest : Kept (lock .table >>= fun _ => tryToRemove d.source >>= fun _ => unlock .table) :=
      kept_step rfl fun _ => (kept_tryToRemove _).bind fun _ => kept_last rfl
    refine (hsession s).bind (fun es e s' h hes => ?_) fun es a s' h => ?_
    · exact ⟨(h hes).toSameFlags, Or.inr (h hes).map⟩
    · refine all_reply (r := ()) rfl ((hrest _).mono fun es' x s'' h' hes => ?_)
      rw [List.forall_mem_append] at hes
      have hstill := h' hes.2
      have hflags : SameFlags s' s'' :=
        ⟨hstill.captureEnabled, hstill.copyEnabled, hstill.error⟩
      refine ⟨(h hes.1).toSameFlags.trans hflags, Or.inl ?_⟩
      rw [hstill.map]
      exact Function.update_self _ _ _

end

/-! ## Calls on an fd -/

section

variable {c : AppCall} {fd : Nat} {s : Manager}

theorem onFd_eq {f fd : Nat} (h : (f == fd) = true) : f = fd := beq_iff_eq.mp h

theorem nonNegative_modify {f : Description → Description}
    (h : ∀ d, s.map fd = some d → 0 ≤ (f d).offset) :
    NonNegative (s.modifyDescription fd f) fd := by
  intro d hd
  change Function.update s.map fd _ fd = some d at hd
  rw [Function.update_self] at hd
  obtain ⟨d', hd', rfl⟩ := Option.map_eq_some_iff.mp hd
  exact h d' hd'

/-- The call that the program finishes is judged. -/
def Judges (c : AppCall) (fd : Nat) (s : Manager) (p : CallM Int) : Prop :=
  All managerHandler p s fun es _ s' => Judged c fd s es s'

theorem all_real {f : Except Errno Int → CallM Int}
    {Q : List Event → Except Fault Int → Manager → Prop}
    (hf : ∀ r : Except Errno Int, Op.allows (.real c) s r = true →
      All managerHandler (f r) (s.after r) fun es x s' => Q (⟨.real c, r⟩ :: es) x s') :
    All managerHandler (real c >>= f) s Q :=
  all_answer (H := managerHandler) rfl hf

theorem judges_last (hmeets : ∀ es, Meets s es c) :
    Judges c fd s (real c >>= fun r => pure (value r)) :=
  all_answer (H := managerHandler) rfl fun _ _ => judged_last hmeets

theorem judges_whenAlive {p : CallM Int} (hp : s.isDead = false → Judges c fd s p)
    (hdead : s.isDead = true → ∀ es, Meets s es c) : Judges c fd s (whenAlive c p) := by
  unfold whenAlive
  refine all_reply (r := !s.isDead) rfl ?_
  change Judges c fd s _
  cases h : s.isDead with
  | false => exact hp h
  | true => exact judges_last (hdead h)

theorem judges_read (f nbyte : Nat) : Judges (.read f nbyte) fd s (managerRead f nbyte) := by
  have hmeets : ∀ es, Meets s es (.read f nbyte) := fun _ => trivial
  unfold managerRead
  cases hmap : s.map f with
  | none => exact all_reply (reply_mapGet_none hmap) (judges_last hmeets)
  | some d =>
    refine all_reply (reply_mapGet hmap) (all_reply (r := ()) rfl ?_)
    refine all_real fun r _ => ?_
    cases r with
    | error e => exact all_reply (r := ()) rfl (judged_last hmeets)
    | ok v =>
      dsimp only [onlyIf, value]
      split
      · rename_i hv
        refine all_reply (r := ()) rfl (all_reply (r := ()) rfl (judged_ok rfl fun _ hon hfd => ?_))
        rw [← onFd_eq hon]
        refine ⟨⟨rfl, rfl, rfl⟩, nonNegative_modify fun d' hd' => ?_⟩
        have := hfd d' (onFd_eq hon ▸ hd')
        dsimp only
        omega
      · exact all_reply (r := ()) rfl (judged_last hmeets)

theorem judges_lseek (f : Nat) (offset : Int) (whence : Nat) (hdead : s.isDead = false) :
    Judges (.lseek f offset whence) fd s (managerLseek f offset whence) := by
  unfold managerLseek
  cases hmap : s.map f with
  | none => exact all_reply (reply_mapGet_none hmap) (judges_last fun _ _ => hmap)
  | some d =>
    refine all_reply (reply_mapGet hmap) (all_reply (r := ()) rfl ?_)
    refine all_real fun r hallows => all_reply (r := ()) rfl (all_reply (r := ()) rfl ?_)
    cases r with
    | error e =>
      refine judged_error rfl fun _ _ hfd => iff_of_false (fun h => ?_) fun h => ?_
      · -- the tracked offset is now -1
        have hnonneg := hfd f (beq_self_eq_true f) d hmap
        have hat := congrFun h.1.map f
        change Function.update s.map f ((s.map f).map fun d => { d with offset := -1 }) f =
          s.map f at hat
        rw [Function.update_self, hmap] at hat
        have := congrArg Description.offset (Option.some.inj hat)
        dsimp only at this
        omega
      · have := h hdead
        rw [hmap] at this
        cases this
    | ok v =>
      have hv : 0 ≤ v := of_decide_eq_true hallows
      refine judged_ok rfl fun _ hon _ => ⟨⟨rfl, rfl, rfl⟩, ?_⟩
      rw [← onFd_eq hon]
      exact nonNegative_modify fun _ _ => hv

/-- After the captured part of a call, which is light, the range is given back. -/
theorem all_captured {P : Prop} {p : CallM Unit} {file : Ptr} {g : Range} {v : Int}
    (hlight : Light p) (hkept : P → Kept p) (hmem : g ∈ (s.source file).lockedRanges) :
    All managerHandler (p >>= fun _ => unlockRangeReporting file g >>= fun _ => pure v) s
      fun es _ s' => s'.map = s.map ∧ (P → (∀ e ∈ es, Serves e) → SameFlags s s') := by
  have hflags : All managerHandler p s fun es _ s' =>
      P → (∀ e ∈ es, Serves e) → SameFlags s s' := by
    by_cases hP : P
    · exact (hkept hP s).mono fun es x s' h _ hes => (h hes).toSameFlags
    · exact (hlight.all s).mono fun es _ s' _ h => absurd h hP
  refine ((hlight.all s).and hflags).bind (fun es e s' ⟨h, hflags⟩ => ⟨h.1.map, hflags⟩) ?_
  intro es a s' ⟨⟨halike, hes, _⟩, hflags⟩
  refine All.bind
    (all_unlockRange (Q := fun es' x s'' => es' = [] ∧ (∃ b, x = .ok b) ∧ Still s' s'')
      ?_ ⟨rfl, ⟨_, rfl⟩, ⟨⟨rfl, rfl, rfl⟩, rfl⟩⟩) (fun es' e s'' h => ?_)
      fun es' b s'' ⟨hnil, _, hstill⟩ => ?_
  · rwa [(halike.source file).lockedRanges]
  · obtain ⟨-, ⟨b, hb⟩, -⟩ := h
    cases hb
  · subst hnil
    refine ⟨hstill.map.trans halike.map, fun hP hserves => ?_⟩
    rw [List.append_nil, List.append_nil] at hserves
    exact (hflags hP hserves).trans hstill.toSameFlags

/-- When the real call fails, the range is given back, and `errno` restored. -/
theorem all_failed {file : Ptr} {g : Range} {v : Int} (hmem : g ∈ (s.source file).lockedRanges) :
    All managerHandler (errno >>= fun e => unlockRangeReporting file g >>= fun _ =>
      setErrno e >>= fun _ => pure v) s
      fun es _ s' => es = [] ∧ ∃ n, s' = { unlockedRange s file g with errno := n } := by
  refine all_reply (r := s.errno) rfl ?_
  change All managerHandler (unlockRangeReporting file g >>= fun _ =>
    setErrno s.errno >>= fun _ => pure v) s _
  refine All.bind (all_unlockRange (Q := fun es x s' => es = [] ∧ x = .ok true ∧
    s' = unlockedRange s file g) hmem ⟨rfl, rfl, rfl⟩) (fun es e s' h => ?_) fun es b s' h => ?_
  · cases h.2.1
  · obtain ⟨rfl, -, rfl⟩ := h
    exact all_reply (r := ()) rfl ⟨rfl, s.errno, rfl⟩

theorem unchanging_real (c : AppCall) (r : Except Errno Int) :
    ∀ e ∈ [(⟨.real c, r⟩ : Event)], Unchanging e := by
  intro e he c' hc'
  cases List.mem_singleton.mp he
  cases hc'

theorem mem_after {file : Ptr} {g : Range} (hmem : g ∈ (s.source file).lockedRanges)
    (r : Except Errno Int) : g ∈ ((s.after r).source file).lockedRanges := by
  cases r with
  | ok v => exact hmem
  | error e => exact hmem

theorem judged_captured {P : Prop} {file : Ptr} {g : Range} {v : Int} {es : List Event}
    {s' : Manager} (hP : Serves ⟨.real c, (.ok v : Except Errno Int)⟩ → P)
    (h : s'.map = (lockedRange s file g).map ∧
      (P → (∀ e ∈ es, Serves e) → SameFlags (lockedRange s file g) s')) :
    Judged c fd s (⟨.real c, .ok v⟩ :: es) s' := by
  refine judged_ok rfl fun hserves _ hfd => ⟨?_, ?_⟩
  · have hflags := h.2 (hP (hserves _ (List.mem_cons_self ..)))
      fun e he => hserves e (List.mem_cons_of_mem _ he)
    exact ⟨hflags.captureEnabled, hflags.copyEnabled, hflags.error⟩
  · unfold NonNegative
    rw [h.1]
    exact hfd

theorem judges_ftruncate (f : Nat) (length : Int) :
    Judges (.ftruncate f length) fd s (managerFtruncate f length) := by
  have hmeets : ∀ es, Meets s es (.ftruncate f length) := fun _ => trivial
  unfold managerFtruncate
  cases hmap : s.map f with
  | none => exact all_reply (reply_mapGet_none hmap) (judges_last hmeets)
  | some d =>
    refine all_reply (reply_mapGet hmap) (all_reply (r := ()) rfl ?_)
    change All _ _ (lockedRange s d.source _) _
    refine all_real fun r _ => ?_
    have hlocked := undisturbed_after (lockedRange s d.source ⟨u64 length, llongMax⟩) r
    have hmem := mem_after (mem_lockedRange s d.source ⟨u64 length, llongMax⟩) r
    cases r with
    | error e =>
      dsimp only [value]
      rw [if_neg (by decide)]
      refine (all_failed hmem).mono fun es x s' ⟨hes, n, hs'⟩ => ?_
      subst hes hs'
      refine judged_error rfl fun _ _ _ => iff_of_true ⟨?_, unchanging_real _ _⟩ trivial
      exact (undisturbed_range hlocked).trans (undisturbed_errno _ n)
    | ok v =>
      dsimp only [value]
      split
      · refine (all_captured (P := True) (light_withSession (light_captureFtruncate _ _))
          (fun _ => kept_withSession (kept_captureFtruncate _ _)) hmem).mono fun es x s' h => ?_
        exact judged_captured (fun _ => trivial) h
      · refine (all_failed hmem).mono fun es x s' ⟨hes, n, hs'⟩ => judged_ok rfl fun _ _ hfd => ?_
        subst hs'
        exact ⟨⟨rfl, rfl, rfl⟩, hfd⟩

theorem judges_pwrite (f : Nat) (buf : List UInt8) (offset : Int) :
    Judges (.pwrite f buf offset) fd s (managerPwrite f buf offset) := by
  have hmeets : ∀ es, Meets s es (.pwrite f buf offset) := fun _ => trivial
  unfold managerPwrite
  cases hmap : s.map f with
  | none =>
    refine all_reply (reply_mapGet_none hmap) (all_real fun r _ => ?_)
    exact judged_last hmeets
  | some d =>
    refine all_reply (reply_mapGet hmap) (all_reply (r := ()) rfl ?_)
    change All _ _ (lockedRange s d.source _) _
    refine all_real fun r hallows => ?_
    have hlocked := undisturbed_after
      (lockedRange s d.source ⟨u64 offset, u64 (offset + buf.length)⟩) r
    have hmem := mem_after
      (mem_lockedRange s d.source ⟨u64 offset, u64 (offset + buf.length)⟩) r
    cases r with
    | error e =>
      dsimp only [value]
      rw [if_pos (by decide)]
      refine (all_failed hmem).mono fun es x s' ⟨hes, n, hs'⟩ => ?_
      subst hes hs'
      refine judged_error rfl fun _ _ _ => iff_of_true ⟨?_, unchanging_real _ _⟩ trivial
      exact (undisturbed_range hlocked).trans (undisturbed_errno _ n)
    | ok v =>
      have hv : ¬ v < 0 := Int.not_lt.mpr (of_decide_eq_true hallows)
      dsimp only [value]
      rw [if_neg hv]
      have hlight : Light (onlyIf (v > 0) (withSession (captureWrite d.source buf offset))) :=
        light_onlyIf (light_withSession (light_captureWrite _ _ _))
      have hkept : 0 ≤ offset →
        Kept (onlyIf (v > 0) (withSession (captureWrite d.source buf offset))) := by
        intro hoffset
        unfold onlyIf
        split
        · exact kept_withSession (kept_captureWrite _ _ hoffset)
        · exact kept_pure _
      refine (all_captured hlight hkept hmem).mono fun es x s' h => ?_
      exact judged_captured (fun hserves => hserves v rfl) h

/-- A write is captured when there is a session, the file has a destination and there is
something to write. -/
theorem captured_changes (file : Ptr) (buf : List UInt8) (offset : Int) :
    All managerHandler (withSession (captureWrite file buf offset)) s fun es _ s' =>
      (s.session.isSome = true → (s.source file).destinationFile.isSome = true → buf ≠ [] →
        ∃ e ∈ es, ¬ Unchanging e) ∧
      ((s.session.isSome = true → (s.source file).destinationFile.isSome = true → buf = []) →
        es = [] ∧ s' = s) := by
  unfold withSession
  refine all_reply (r := ()) rfl (all_reply (r := s.session) rfl ?_)
  change All _ _ s _
  cases s.session with
  | none =>
    exact all_reply (r := ()) rfl ⟨fun h => absurd h Bool.false_ne_true, fun _ => ⟨rfl, rfl⟩⟩
  | some D =>
    unfold captureWrite
    rw [Prog.bind_assoc]
    refine all_reply (r := (s.source file).destinationFile) rfl ?_
    change All _ _ s _
    cases (s.source file).destinationFile with
    | none =>
      exact all_reply (r := ()) rfl ⟨fun _ h => absurd h Bool.false_ne_true, fun _ => ⟨rfl, rfl⟩⟩
    | some d =>
      change All _ ((destinationPwrite d buf offset >>= fun _ => pure ()) >>= _) s _
      cases buf with
      | nil => exact all_reply (r := ()) rfl ⟨fun _ _ h => absurd rfl h, fun _ => ⟨rfl, rfl⟩⟩
      | cons b buf =>
        have htrue : ∀ {p : CallM Unit} {s : Manager}, All managerHandler p s fun _ _ _ => True :=
          fun {p s} => all_iff.mpr fun _ _ _ _ => trivial
        refine all_answer rfl fun (r : Except Errno Nat) _ => htrue.mono fun es x s' _ =>
          ⟨fun _ _ _ => ?_, ?_⟩
        · refine ⟨_, List.mem_cons_self .., fun h => ?_⟩
          have := h _ rfl
          cases this
        · intro h
          have := h rfl rfl
          cases this

theorem judges_write (f : Nat) (buf : List UInt8) (hdead : s.isDead = false) :
    Judges (.write f buf) fd s (managerWrite f buf) := by
  unfold managerWrite
  cases hmap : s.map f with
  | none =>
    refine all_reply (reply_mapGet_none hmap) (judges_last fun _ _ d hd => ?_)
    have hsome : s.map f = some d := hd
    rw [hmap] at hsome
    cases hsome
  | some d =>
    refine all_reply (reply_mapGet hmap) (all_reply (r := ()) rfl ?_)
    refine all_reply (r := d.offset) ?_ (all_reply (r := ()) rfl ?_)
    · change some (((s.map f).map Description.offset).getD 0) = _
      rw [hmap]
      rfl
    change All _ _ (lockedRange s d.source _) _
    refine all_real fun r hallows => ?_
    have hlocked := undisturbed_after
      (lockedRange s d.source ⟨u64 d.offset, u64 (d.offset + buf.length)⟩) r
    have hmem := mem_after
      (mem_lockedRange s d.source ⟨u64 d.offset, u64 (d.offset + buf.length)⟩) r
    have hlight : Light (withSession (captureWrite d.source buf d.offset)) :=
      light_withSession (light_captureWrite _ _ _)
    have hdest : ((lockedRange s d.source
        ⟨u64 d.offset, u64 (d.offset + buf.length)⟩).source d.source).destinationFile =
          (s.source d.source).destinationFile := by
      unfold lockedRange
      rw [Manager.source_modify_self]
    cases r with
    | error e =>
      dsimp only [onlyIf, value]
      rw [if_neg (by decide)]
      refine all_reply (r := ()) rfl ?_
      refine ((captured_changes d.source buf d.offset).and (hlight.all _)).bind
        (fun es x s' h => ?_) fun es a s' ⟨⟨hyes, hno⟩, halike, _⟩ => ?_
      · obtain ⟨-, -, -, a, ha⟩ := h
        cases ha
      · have hmem' : (⟨u64 d.offset, u64 (d.offset + buf.length)⟩ : Range) ∈
            (s'.source d.source).lockedRanges := by
          rw [(halike.source d.source).lockedRanges]
          exact hmem
        refine All.bind (all_unlockRange (Q := fun es x s'' => es = [] ∧ x = .ok true ∧
          s'' = unlockedRange s' d.source ⟨u64 d.offset, u64 (d.offset + buf.length)⟩)
          hmem' ⟨rfl, rfl, rfl⟩) (fun es' x s'' h => ?_) fun es' b s'' h => ?_
        · cases h.2.1
        · obtain ⟨rfl, -, rfl⟩ := h
          refine judged_error rfl fun _ _ _ => ?_
          rw [List.append_nil, List.append_nil]
          by_cases hcaptured : s.session.isSome = true →
              (s.source d.source).destinationFile.isSome = true → buf = []
          · obtain ⟨rfl, rfl⟩ := hno fun hsession hd => hcaptured hsession (hdest ▸ hd)
            refine iff_of_true ⟨undisturbed_range hlocked, unchanging_real _ _⟩ ?_
            intro _ d' hd' hsession hd
            have hsame : d' = d := Option.some.inj (hd'.symm.trans hmap)
            subst hsame
            exact hcaptured hsession hd
          · refine iff_of_false (fun h => ?_) fun h => hcaptured (h hdead d hmap)
            obtain ⟨hsession, h'⟩ := not_forall.mp hcaptured
            obtain ⟨hd, hbuf⟩ := not_forall.mp h'
            obtain ⟨e', he', hchange⟩ := hyes hsession (hdest.symm ▸ hd) hbuf
            exact hchange (h.2 e' (List.mem_cons_of_mem _ he'))
    | ok v =>
      have hkept : 0 ≤ d.offset → Kept (withSession (captureWrite d.source buf d.offset)) :=
        fun hoffset => kept_withSession (kept_captureWrite _ _ hoffset)
      have hv : 0 ≤ v := of_decide_eq_true hallows
      -- in both cases the offset moves forward
      have hrest : ∀ (t : Manager), t.source = (lockedRange s d.source
            ⟨u64 d.offset, u64 (d.offset + buf.length)⟩).source → SameFlags s t →
          (NonNegative s f → NonNegative t f) →
          All managerHandler (withSession (captureWrite d.source buf d.offset) >>= fun _ =>
            unlockRangeReporting d.source ⟨u64 d.offset, u64 (d.offset + buf.length)⟩ >>= fun _ =>
              pure v) t fun es _ s' =>
                Judged (.write f buf) fd s (⟨.real (.write f buf), .ok v⟩ :: es) s' := by
        intro t hsource hflags hnonneg
        refine (all_captured hlight hkept (hsource ▸ hmem)).mono fun es x s' ⟨hmap', hflags'⟩ => ?_
        refine judged_ok rfl fun hserves hon hfd => ?_
        rw [← onFd_eq hon] at hfd ⊢
        refine ⟨hflags.trans
          (hflags' (hfd d hmap) fun e he => hserves e (List.mem_cons_of_mem _ he)), ?_⟩
        unfold NonNegative
        rw [hmap']
        exact hnonneg hfd
      dsimp only [onlyIf, value]
      split
      · refine all_reply (r := ()) rfl (all_reply (r := ()) rfl (hrest _ rfl ⟨rfl, rfl, rfl⟩ ?_))
        refine fun hnonneg => nonNegative_modify fun d' hd' => ?_
        have := hnonneg d' hd'
        dsimp only
        omega
      · exact all_reply (r := ()) rfl (hrest _ rfl ⟨rfl, rfl, rfl⟩ fun hnonneg => hnonneg)

theorem judges_close (f : Nat) : Judges (.close f) fd s (interposed (.close f)) := by
  have hjudged : ∀ {es : List Event} {s' : Manager},
      ((∀ e ∈ es, Serves e) → SameFlags s s' ∧ (s'.map f = none ∨ s'.map = s.map)) →
      Judged (.close f) fd s es s' := by
    intro es s' h hserves hfd
    refine ⟨fun hlisted => hlisted.elim, fun _ hon => ⟨(h hserves).1, ?_⟩⟩
    have hnonneg := hfd fd hon
    rw [← onFd_eq hon] at hnonneg ⊢
    rcases (h hserves).2 with hnone | hsame
    · intro d hd
      rw [hnone] at hd
      cases hd
    · unfold NonNegative
      rw [hsame]
      exact hnonneg
  change Judges _ _ _ (ifAlive (managerClose f) >>= fun _ =>
    real (.close f) >>= fun r => pure (value r))
  unfold ifAlive
  rw [Prog.bind_assoc]
  refine all_reply (r := !s.isDead) rfl ?_
  change Judges _ _ _ _
  cases s.isDead with
  | true =>
    refine all_real fun r _ => ?_
    have hafter := undisturbed_after s r
    exact hjudged fun _ => ⟨hafter.toSameFlags, Or.inr hafter.map⟩
  | false =>
    change All _ (managerClose f >>= fun _ => real (.close f) >>= fun r => pure (value r)) s _
    refine All.bind (kept_managerClose f s) (fun es e s' h => hjudged h) fun es a s' h => ?_
    refine all_real fun r _ => ?_
    have hafter := undisturbed_after s' r
    refine hjudged fun hserves => ?_
    rw [List.forall_mem_append] at hserves
    obtain ⟨hflags, hmap⟩ := h hserves.1
    refine ⟨hflags.trans hafter.toSameFlags, ?_⟩
    rw [hafter.map]
    exact hmap

/-! ## Calls by path -/

/-- Nothing but the real call, and resolutions of paths. -/
theorem judged_path {es : List Event} {s' : Manager} {r : Except Errno Int}
    (hpath : c.onFd fd = false) (hes : realAnswer es = some r) (hsame : Undisturbed s s')
    (hquiet : ∀ e ∈ es, Unchanging e) (hmeets : Meets s es c) : Judged c fd s es s' := by
  cases r with
  | error e => exact judged_error hes fun _ _ _ => iff_of_true ⟨hsame, hquiet⟩ hmeets
  | ok v =>
    refine judged_ok hes fun _ hon => ?_
    rw [hpath] at hon
    cases hon

/-- A call by path that succeeds is not looked at. -/
theorem judges_ok {α : Type} {p : CallM α} {es : List Event} {v : Int} (hpath : c.onFd fd = false)
    (hes : ∀ es', realAnswer (es ++ es') = some (.ok v)) {t : Manager} :
    All managerHandler p t fun es' _ s' => Judged c fd s (es ++ es') s' := by
  have htrue : ∀ {p : CallM α} {s : Manager}, All managerHandler p s fun _ _ _ => True :=
    fun {p s} => all_iff.mpr fun _ _ _ _ => trivial
  refine htrue.mono fun es' x s' _ => judged_ok (hes es') fun _ hon => ?_
  rw [hpath] at hon
  cases hon

theorem judges_fileOp {p : CallM Int} (hp : Judges c fd s p) :
    Judges c fd s
      (lock .fileOp >>= fun _ => p >>= fun r => unlock .fileOp >>= fun _ => pure r) := by
  refine all_reply (r := ()) rfl ?_
  change All _ (p >>= fun r => unlock .fileOp >>= fun _ => pure r) s _
  refine All.bind hp (fun es e s' h => h) fun es a s' h => ?_
  refine all_reply (r := ()) rfl ?_
  change Judged c fd s (es ++ []) s'
  rwa [List.append_nil]

theorem judges_open (file : Path) (oflag : Nat) (creat : Bool) (mode : Option Nat) :
    Judges (.openFile file oflag creat mode) fd s (interposedOpen file oflag creat mode) := by
  have hmeets : ∀ es, Meets s es (.openFile file oflag creat mode) := fun _ => trivial
  unfold interposedOpen
  cases creat with
  | true =>
    rw [if_pos rfl]
    refine all_reply (r := ()) rfl (all_real fun r _ => ?_)
    cases r with
    | error e => exact all_reply (r := ()) rfl (judged_last hmeets)
    | ok v => exact @judges_ok _ _ _ _ _ [_] _ rfl (fun _ => rfl) _
  | false =>
    rw [if_neg Bool.false_ne_true]
    refine all_real fun r _ => ?_
    cases r with
    | error e => exact judged_last hmeets
    | ok v => exact @judges_ok _ _ _ _ _ [_] _ rfl (fun _ => rfl) _

theorem judges_mkdir (pathname : Path) (mode : Nat) :
    Judges (.mkdir pathname mode) fd s (interposed (.mkdir pathname mode)) := by
  have hmeets : ∀ es, Meets s es (.mkdir pathname mode) := fun _ => trivial
  unfold interposed
  refine all_real fun r _ => ?_
  cases r with
  | error e => exact judged_last hmeets
  | ok v => exact @judges_ok _ _ _ _ _ [_] _ rfl (fun _ => rfl) _

/-- A path is resolved, and the real call performed. -/
theorem judged_resolved {site : Site} {path : Path} {q : Except Errno Path}
    {r : Except Errno Int} (hpath : c.onFd fd = false)
    (hmeets : Meets s [⟨.realpath site path, q⟩, ⟨.real c, r⟩] c) :
    Judged c fd s [⟨.realpath site path, q⟩, ⟨.real c, r⟩] ((s.after q).after r) := by
  refine judged_path (r := r)
    hpath rfl ((undisturbed_after s q).trans (undisturbed_after _ r)) ?_ hmeets
  intro e he c' hc'
  rw [List.mem_cons, List.mem_singleton] at he
  rcases he with rfl | rfl
  · cases hc'
  · cases hc'

/-- The path cannot be resolved; `ENOMEM`, which is reported, is excluded. -/
theorem judges_unresolved {site : Site} {path : Path} {e : Errno} {text : String}
    (hpath : c.onFd fd = false)
    (hmeets : ∀ r : Except Errno Int, Meets s [⟨.realpath site path, .error e⟩, ⟨.real c, r⟩] c) :
    All managerHandler (reportNoMemory e text >>= fun _ => real c >>= fun r => pure (value r))
      (s.after (.error e : Except Errno Path)) fun es _ s' =>
        Judged c fd s (⟨.realpath site path, .error e⟩ :: es) s' := by
  unfold reportNoMemory onlyIf
  split
  · rename_i hcode
    have htrue : ∀ {p : CallM Int} {s : Manager}, All managerHandler p s fun _ _ _ => True :=
      fun {p s} => all_iff.mpr fun _ _ _ _ => trivial
    refine htrue.mono fun es x s' _ hserves => ?_
    exact absurd hcode (hserves _ (List.mem_cons_self ..) e rfl)
  · exact all_real fun r _ => judged_resolved hpath (hmeets r)

theorem judges_rename (oldpath newpath : Path) :
    Judges (.rename oldpath newpath) fd s (managerRename oldpath newpath) := by
  unfold managerRename
  refine all_answer rfl fun (q : Except Errno Path) _ => ?_
  cases q with
  | error e => exact judges_unresolved rfl fun _ => trivial
  | ok full_old_path =>
    refine all_real fun r _ => ?_
    cases r with
    | error e => exact judged_resolved rfl trivial
    | ok v => exact @judges_ok _ _ _ _ _ [_, _] _ rfl (fun _ => rfl) _

theorem judges_unlink (path : Path) : Judges (.unlink path) fd s (managerUnlink path) := by
  unfold managerUnlink
  refine all_answer rfl fun (q : Except Errno Path) _ => ?_
  cases q with
  | error e => exact judges_unresolved rfl fun _ => trivial
  | ok full_path =>
    refine all_real fun r _ => ?_
    cases r with
    | error e => exact judged_resolved rfl trivial
    | ok v => exact @judges_ok _ _ _ _ _ [_, _] _ rfl (fun _ => rfl) _

/-- A reference is taken and given back. -/
theorem undisturbed_reference {s s' : Manager} {file : Ptr}
    (h : Undisturbed (referenced s file) s') :
    Undisturbed s (released s' file) := by
  have hfile := h.source file
  rw [referenced_self] at hfile
  refine ⟨⟨h.captureEnabled, h.copyEnabled, h.error⟩, h.isDead, h.session, h.map, fun p => ?_⟩
  by_cases hp : p = file
  · subst hp
    unfold released
    rw [Manager.source_modify_self]
    refine ⟨hfile.fullPath, ?_, hfile.unlinked, hfile.destinationFile, hfile.lockedRanges⟩
    change (s'.source p).referenceCount - 1 = _
    rw [hfile.referenceCount]
    rfl
  · have hother := h.source p
    unfold referenced at hother
    unfold released
    rw [Manager.source_modify_ne _ hp] at hother ⊢
    exact hother

theorem judges_truncateInSession (path full_path dest : Path) (length : Int) :
    All managerHandler (truncateInSession path full_path dest length) s fun es _ s' =>
      Judged (.truncate path length) fd s (⟨.realpath .truncate path, .ok full_path⟩ :: es) s' := by
  unfold truncateInSession
  refine all_reply (r := ()) rfl (all_answer rfl fun (found : Option Ptr) _ => ?_)
  cases found with
  | none =>
    refine fun _ _ => ⟨fun _ h => ?_, fun h => ?_⟩
    · obtain ⟨e, he, -⟩ := h
      cases he
    · obtain ⟨v, hv⟩ := h
      cases hv
  | some p =>
    refine all_reply (r := ()) rfl (all_reply (r := ()) rfl (all_reply (r := ()) rfl ?_))
    change All _ _ (lockedRange (referenced s p) p _) _
    refine all_real fun r _ => ?_
    cases r with
    | ok v => exact @judges_ok _ _ _ _ _ [_, _, _] _ rfl (fun _ => rfl) _
    | error e =>
      dsimp only [onlyIf, value]
      rw [if_neg (by decide)]
      have hmem := mem_after (mem_lockedRange (referenced s p) p ⟨u64 length, llongMax⟩) (.error e)
      change All managerHandler (unlockRangeReporting p _ >>= _) _ _
      refine All.bind
        (all_unlockRange (Q := fun es x s' => es = [] ∧ x = .ok true ∧ s' = unlockedRange
        ((lockedRange (referenced s p) p ⟨u64 length, llongMax⟩).after
          (.error e : Except Errno Int)) p
          ⟨u64 length, llongMax⟩) hmem ⟨rfl, rfl, rfl⟩) (fun es x s' h => ?_) fun es b s' h => ?_
      · cases h.2.1
      · obtain ⟨rfl, hb, rfl⟩ := h
        have hlocked := undisturbed_range (undisturbed_after
          (lockedRange (referenced s p) p ⟨u64 length, llongMax⟩) (.error e : Except Errno Int))
        have hcount := (hlocked.source p).referenceCount
        rw [referenced_self] at hcount
        refine All.bind (all_removeReference (Q := fun es x s' => es = [] ∧ x = .ok () ∧
          s' = released
            (unlockedRange ((lockedRange (referenced s p) p ⟨u64 length, llongMax⟩).after
            (.error e : Except Errno Int)) p ⟨u64 length, llongMax⟩) p)
          (hcount ▸ Nat.succ_pos _) ⟨rfl, rfl, rfl⟩) (fun es x s' h => ?_) fun es u s' h => ?_
        · cases h.2.1
        · obtain ⟨rfl, -, rfl⟩ := h
          cases hb
          refine judged_path (r := .error e) rfl rfl (undisturbed_reference hlocked) ?_ ?_
          · intro e' he' c' hc'
            simp only [List.append_nil, List.mem_cons, List.not_mem_nil, or_false] at he'
            rcases he' with rfl | rfl | rfl
            · cases hc'
            · cases hc'
            · cases hc'
          · intro _ h
            obtain ⟨e', he'⟩ := h
            simp only [List.append_nil, List.mem_cons, List.not_mem_nil, or_false] at he'
            rcases he' with he' | he' | he'
            · cases he'
            · cases he'
            · cases he'

theorem judges_truncate (path : Path) (length : Int) (hdead : s.isDead = false) :
    Judges (.truncate path length) fd s (managerTruncate path length) := by
  unfold managerTruncate
  refine all_answer rfl fun (q : Except Errno Path) _ => ?_
  cases q with
  | error e =>
    refine all_reply (r := ()) rfl (all_real fun r _ => ?_)
    cases r with
    | ok v => exact judged_ok rfl fun _ hon _ => absurd hon Bool.false_ne_true
    | error e' =>
      refine judged_error rfl fun _ _ _ => ?_
      constructor
      · intro h _ _
        have herror : s.error.or (some (e.code, "Failed to truncate backup file.")) =
          s.error := h.1.error
        refine ⟨h.1.captureEnabled.symm, h.1.copyEnabled.symm, ?_⟩
        rw [← herror, Option.isSome_or]
        exact Bool.or_true _
      · intro h
        obtain ⟨hcapture, hcopy, herror⟩ := h hdead ⟨e, List.mem_cons_self ..⟩
        have hor : s.error.or (some (e.code, "Failed to truncate backup file.")) = s.error :=
          Option.or_of_isSome herror
        refine ⟨⟨⟨hcapture.symm, hcopy.symm, hor⟩, rfl, rfl, rfl, fun _ => SameSource.refl _⟩, ?_⟩
        intro e₁ he₁ c' hc'
        rw [List.mem_cons, List.mem_singleton] at he₁
        rcases he₁ with rfl | rfl
        · cases hc'
        · cases hc'
  | ok full_path =>
    -- the file is in no source directory
    have hmeets : ∀ r : Except Errno Int, Meets s
        [⟨.realpath .truncate path, .ok full_path⟩, ⟨.real (.truncate path length), r⟩]
        (.truncate path length) := by
      intro r _ h
      obtain ⟨e, he⟩ := h
      rw [List.mem_cons, List.mem_singleton] at he
      rcases he with he | he
      · cases he
      · cases he
    have hplain : All managerHandler (real (.truncate path length) >>= fun r =>
        rdunlock >>= fun _ => pure (value r)) s fun es _ s' =>
          Judged (.truncate path length)
            fd s (⟨.realpath .truncate path, .ok full_path⟩ :: es) s' :=
      all_real fun r _ => all_reply (r := ()) rfl (judged_resolved rfl (hmeets r))
    refine all_reply (r := ()) rfl (all_reply (r := s.session) rfl ?_)
    change All managerHandler _ s _
    cases s.session with
    | none => exact hplain
    | some D =>
      change All managerHandler (if D.isPrefixOfRealpath full_path = true then _ else _) s _
      split
      · rename_i hinside
        obtain ⟨dest, hdest⟩ := translate_eq hinside
        rw [hdest, pure_eq, done_bind]
        refine All.bind (judges_truncateInSession path full_path dest length)
          (fun es e s' h => h) ?_
        intro es a s' h
        refine all_reply (r := ()) rfl ?_
        change Judged _ fd s (_ :: (es ++ [])) s'
        rwa [List.append_nil]
      · exact hplain

/-! ## The main result -/

theorem judges_interposed (c : AppCall) (fd : Nat) (s : Manager) :
    Judges c fd s (interposed c) := by
  cases c with
  | openFile file oflag creat mode => exact judges_open file oflag creat mode
  | close f => exact judges_close f
  | read f nbyte => exact judges_whenAlive (fun _ => judges_read f nbyte) fun _ _ => trivial
  | write f buf =>
    refine judges_whenAlive (judges_write f buf) fun hdead es h => ?_
    rw [hdead] at h
    cases h
  | pwrite f buf offset =>
    exact judges_whenAlive (fun _ => judges_pwrite f buf offset) fun _ _ => trivial
  | lseek f offset whence =>
    refine judges_whenAlive (judges_lseek f offset whence) fun hdead es h => ?_
    rw [hdead] at h
    cases h
  | ftruncate f length =>
    exact judges_whenAlive (fun _ => judges_ftruncate f length) fun _ _ => trivial
  | truncate path length =>
    refine judges_whenAlive (judges_truncate path length) fun hdead es h => ?_
    rw [hdead] at h
    cases h
  | rename oldpath newpath =>
    exact judges_whenAlive (fun _ => judges_fileOp (judges_rename oldpath newpath))
      fun _ _ => trivial
  | unlink path =>
    exact judges_whenAlive (fun _ => judges_fileOp (judges_unlink path)) fun _ _ => trivial
  | mkdir pathname mode => exact judges_mkdir pathname mode

end

/-- A call on the fd that succeeds, or a call that fails and works on no other fd. -/
def CallStep.Of (fd : Nat) (st : CallStep) : Prop :=
  (RealSucceeds st.events ∧ st.call.onFd fd = true) ∨
    (RealFails st.events ∧ st.call.Listed ∧ ∀ f, st.call.onFd f = true → f = fd)

/-- A call that fails leaves no trace in the manager and in the backup, and one that succeeds
raises no error. -/
def CallStep.Spared (st : CallStep) : Prop :=
  (RealFails st.events → Undisturbed st.before st.after ∧ ∀ e ∈ st.events, Unchanging e) ∧
    (RealSucceeds st.events → SameFlags st.before st.after)

/-- Other calls and the backup may come between two calls, as long as they leave the description
of the fd alone. -/
def Follows (fd : Nat) (st st' : CallStep) : Prop := st'.before.map fd = st.after.map fd

theorem onFd_unique {c : AppCall} {f fd : Nat} (h : c.onFd fd = true) (h' : c.onFd f = true) :
    f = fd := by
  cases c with
  | read g n => exact (onFd_eq h').symm.trans (onFd_eq h)
  | write g buf => exact (onFd_eq h').symm.trans (onFd_eq h)
  | pwrite g buf offset => exact (onFd_eq h').symm.trans (onFd_eq h)
  | lseek g offset whence => exact (onFd_eq h').symm.trans (onFd_eq h)
  | ftruncate g length => exact (onFd_eq h').symm.trans (onFd_eq h)
  | close g => exact (onFd_eq h').symm.trans (onFd_eq h)
  | _ => cases h

theorem not_fails_and_succeeds {es : List Event} (h : RealFails es) : ¬ RealSucceeds es := by
  intro h'
  obtain ⟨e, he, -⟩ := h
  obtain ⟨v, hv⟩ := h'
  rw [he] at hv
  cases hv

/-- One call of a run. -/
theorem spared_step {fd : Nat} {st : CallStep} (hrun : st.Runs)
    (hserves : ∀ e ∈ st.events, Serves e)
    (hof : st.Of fd) (hfd : NonNegative st.before fd) :
    (st.Spared ↔ (RealFails st.events → Meets st.before st.events st.call)) ∧
      (st.Spared → NonNegative st.after fd) := by
  have hjudged := all_iff.mp (judges_interposed st.call fd st.before) _ _ _ hrun hserves
  rcases hof with ⟨hok, hon⟩ | ⟨hfails, hlisted, hother⟩
  · obtain ⟨-, hkeeps⟩ := hjudged fun f hf => onFd_unique hon hf ▸ hfd
    obtain ⟨hflags, hnonneg⟩ := hkeeps hok hon
    have hnot : ¬ RealFails st.events := fun h => not_fails_and_succeeds h hok
    refine ⟨iff_of_true ⟨fun h => absurd h hnot, fun _ => hflags⟩ fun h => absurd h hnot, ?_⟩
    exact fun _ => hnonneg
  · obtain ⟨hiff, -⟩ := hjudged fun f hf => hother f hf ▸ hfd
    have hnot := not_fails_and_succeeds hfails
    constructor
    · constructor
      · exact fun h _ => (hiff hlisted hfails).mp (h.1 hfails)
      · exact fun h => ⟨fun _ => (hiff hlisted hfails).mpr (h hfails), fun hok => absurd hok hnot⟩
    · intro h
      unfold NonNegative
      rw [(h.1 hfails).1.map]
      exact hfd

/-- In every run of calls on an fd, and of failing calls by path, the failing calls leave no
trace and the others raise no error, exactly when every failing call meets its condition. -/
theorem failed_calls_spared_iff {fd : Nat} {steps : List CallStep} (hruns : ∀ st ∈ steps, st.Runs)
    (hserves : ∀ st ∈ steps, ∀ e ∈ st.events, Serves e) (hof : ∀ st ∈ steps, st.Of fd)
    (hfollows : steps.IsChain (Follows fd))
    (hfirst : ∀ st ∈ steps.head?, NonNegative st.before fd) :
    (∀ st ∈ steps, st.Spared) ↔
      ∀ st ∈ steps, RealFails st.events → Meets st.before st.events st.call := by
  induction steps with
  | nil => simp
  | cons st steps ih =>
    rw [List.forall_mem_cons] at hruns hserves hof
    obtain ⟨hiff, hnonneg⟩ := spared_step hruns.1 hserves.1 hof.1 (hfirst st rfl)
    rw [List.forall_mem_cons, List.forall_mem_cons, ← hiff]
    refine and_congr_right fun hspared => ?_
    apply ih hruns.2 hserves.2 hof.2
    · exact hfollows.tail
    · intro st' hst'
      cases steps with
      | nil => cases hst'
      | cons st₁ steps =>
        cases hst'
        have hsame : st'.before.map fd = st.after.map fd :=
          (List.isChain_cons_cons.mp hfollows).1
        intro d hd
        rw [hsame] at hd
        exact hnonneg hspared d hd

/-- Truncating the open file fails. -/
theorem failed_calls_spared_ftruncate : ∃ st : CallStep, st.call = .ftruncate 3 0 ∧
    st.before = openInSession ∧ st.Runs ∧ st.Spared := by
  have hrun : ∃ s', exec managerHandler (interposed (.ftruncate 3 0)) openInSession
      [⟨.real (.ftruncate 3 0), .error Errno.einval⟩] = some (.ok (-1), s') := ⟨_, rfl⟩
  obtain ⟨s', hrun⟩ := hrun
  let st : CallStep := ⟨.ftruncate 3 0, openInSession,
    [⟨.real (.ftruncate 3 0), .error Errno.einval⟩], .ok (-1), s'⟩
  have hmem : ∀ {P : CallStep → Prop}, P st → ∀ st' ∈ [st], P st' := by
    intro P h st' hst'
    cases List.mem_singleton.mp hst'
    exact h
  refine ⟨st, rfl, rfl, hrun, (@failed_calls_spared_iff 3 [st] (hmem hrun) (hmem ?_) (hmem ?_)
    (List.isChain_singleton st) ?_).mpr (hmem fun _ => trivial) st (List.mem_singleton.mpr rfl)⟩
  · intro e he
    cases List.mem_singleton.mp he
    trivial
  · exact Or.inr ⟨⟨Errno.einval, rfl, by decide⟩, trivial, fun f hf => (onFd_eq hf).symm⟩
  · intro st' hst'
    cases hst'
    intro d hd
    cases hd
    decide

/-- An `lseek` fails, and the next `write` succeeds. -/
theorem not_failed_calls_spared_lseek : ¬ ∀ (fd : Nat) (steps : List CallStep),
    (∀ st ∈ steps, st.Runs) → (∀ st ∈ steps, ∀ e ∈ st.events, Serves e) →
    (∀ st ∈ steps, st.Of fd) → steps.IsChain (fun st st' => st'.before = st.after) →
    (∀ st ∈ steps.head?, NonNegative st.before fd) →
    ∀ st ∈ steps, SameFlags st.before st.after := by
  intro h
  have hfirst : ∃ s₁, exec managerHandler (interposed (.lseek 3 (-5) 0)) openInSession
      [⟨.real (.lseek 3 (-5) 0), .error Errno.einval⟩] = some (.ok (-1), s₁) ∧
      ∃ s₂, exec managerHandler (interposed (.write 3 [97])) s₁
        [⟨.real (.write 3 [97]), .ok 1⟩, ⟨.backup (.pwrite 7 [97] (-1)), .error Errno.einval⟩] =
          some (.ok 1, s₂) ∧ s₁.captureEnabled = true ∧ s₂.captureEnabled = false :=
    ⟨_, rfl, _, rfl, rfl, rfl⟩
  obtain ⟨s₁, hseek, s₂, hwrite, henabled, hdisabled⟩ := hfirst
  let seek : CallStep := ⟨.lseek 3 (-5) 0, openInSession,
    [⟨.real (.lseek 3 (-5) 0), .error Errno.einval⟩], .ok (-1), s₁⟩
  let write : CallStep := ⟨.write 3 [97], s₁,
    [⟨.real (.write 3 [97]), .ok 1⟩, ⟨.backup (.pwrite 7 [97] (-1)), .error Errno.einval⟩], .ok 1,
      s₂⟩
  have hmem : ∀ {P : CallStep → Prop}, P seek → P write → ∀ st ∈ [seek, write], P st := by
    intro P hs hw st hst
    rw [List.mem_cons, List.mem_singleton] at hst
    rcases hst with rfl | rfl
    · exact hs
    · exact hw
  have hflags := h 3 [seek, write] (hmem hseek hwrite) (hmem ?_ ?_) (hmem ?_ ?_)
    (List.isChain_pair.mpr rfl) ?_ write (by simp)
  · have := hflags.captureEnabled
    rw [show write.before.captureEnabled = true from henabled,
      show write.after.captureEnabled = false from hdisabled] at this
    cases this
  · intro e he
    cases List.mem_singleton.mp he
    trivial
  · intro e he
    rw [List.mem_cons, List.mem_singleton] at he
    rcases he with rfl | rfl
    · trivial
    · intro hoffset
      exact absurd hoffset (by decide)
  · exact Or.inr ⟨⟨Errno.einval, rfl, by decide⟩, trivial, fun f hf => (onFd_eq hf).symm⟩
  · exact Or.inl ⟨⟨1, rfl⟩, rfl⟩
  · intro st hst
    cases hst
    intro d hd
    cases hd
    decide

end TokuBackup.Interpose
