import TokuBackup.Interpose.TransparentCalls
import TokuBackup.Lib.Hazard

/-!
# Transparent runs

Each interposed call from its beginning: it is transparent exactly when it is benign and no walk
of a chain of the table in it meets a deleted source file, and a run of such calls is a run
without the library.
-/

namespace TokuBackup.Interpose

open Kernel Table Lib Prog
open DoBackup (Errno)

/-! ## Before and after the real call -/

/-- The call that the program finishes is transparent exactly when `B` says. -/
def Ends (c : AppCall) (B : List Event → Prop) (p : CallM Int) (s : Manager) : Prop :=
  All managerHandler p s fun es x s' => Transparent c es x s' ↔ B es

/-- After the real call, with answer `r`, there is no other, and the program returns what it
returned and keeps its `errno` exactly when `B` says. -/
def Rests (r : Except Errno Int) (B : List Event → Prop) (p : CallM Int) (s : Manager) : Prop :=
  All managerHandler p s fun es x s' => (∀ e ∈ es, e.1.isReal = false) ∧
    ((x = .ok (value r) ∧ ∀ e, r = .error e → s'.errno = e.code) ↔ B es)

section

variable {c : AppCall} {B : List Event → Prop} {s : Manager} {r : Except Errno Int}

theorem filter_real {es : List Event} (h : ∀ e ∈ es, e.1.isReal = false) :
    es.filter (fun e => e.1.isReal) = [] :=
  List.filter_eq_nil_iff.mpr fun e he => Bool.not_eq_true _ ▸ h e he

theorem rests_pure (herrno : ∀ e, r = .error e → s.errno = e.code) (hB : B []) :
    Rests r B (pure (value r)) s :=
  ⟨by simp, iff_of_true ⟨rfl, herrno⟩ hB⟩

theorem rests_reply {o : Op} {f : o.Answer → CallM Int} {a : o.Answer}
    (hr : Op.reply o s = some a) (hf : Rests r B (f a) (Op.next o s a)) :
    Rests r B (call o >>= f) s :=
  all_reply (H := managerHandler) hr hf

theorem rests_answer {o : Op} {f : o.Answer → CallM Int} (hr : Op.reply o s = none)
    (ho : o.isReal = false)
    (hf : ∀ a, Op.allows o s a = true →
      Rests r (fun es => B (⟨o, a⟩ :: es)) (f a) (Op.next o s a)) :
    Rests r B (call o >>= f) s := by
  refine all_answer (H := managerHandler) hr fun a hallows => ?_
  refine (hf a hallows).mono fun es x s' ⟨hes, hx⟩ => ⟨?_, hx⟩
  rw [List.forall_mem_cons]
  exact ⟨ho, hes⟩

/-- After a real call that succeeds, only the end of the program matters. -/
theorem rests_of_sound {v : Int} {α : Type} {p : CallM α} (h : Sound B p s) :
    Rests (.ok v) B (p >>= fun _ => pure v) s := by
  refine All.bind h (fun es e s' ⟨hreal, hx⟩ => ⟨hreal, ?_⟩) fun es a s' ⟨hreal, hx⟩ => ⟨?_, ?_⟩
  · refine iff_of_false (fun h => ?_) fun hB => ?_
    · cases h.1
    · obtain ⟨b, hb⟩ := hx.mpr hB
      cases hb
  · rwa [List.append_nil]
  · rw [List.append_nil]
    exact iff_of_true ⟨rfl, by simp⟩ (hx.mp ⟨a, rfl⟩)

theorem ends_reply {o : Op} {f : o.Answer → CallM Int} {a : o.Answer}
    (hr : Op.reply o s = some a) (hf : Ends c B (f a) (Op.next o s a)) :
    Ends c B (call o >>= f) s :=
  all_reply (H := managerHandler) hr hf

theorem transparent_cons {e : Event} (he : e.1.isReal = false) (es : List Event)
    (x : Except Fault Int) (s' : Manager) :
    Transparent c (e :: es) x s' ↔ Transparent c es x s' := by
  unfold Transparent
  rw [List.filter_cons_of_neg (Bool.not_eq_true _ ▸ he)]

theorem ends_answer {o : Op} {f : o.Answer → CallM Int} (hr : Op.reply o s = none)
    (ho : o.isReal = false)
    (hf : ∀ r, Op.allows o s r = true → Ends c (fun es => B (⟨o, r⟩ :: es)) (f r) (Op.next o s r)) :
    Ends c B (call o >>= f) s := by
  refine all_answer (H := managerHandler) hr fun r hallows => ?_
  exact (hf r hallows).mono fun es x s' hx => (transparent_cons ho es x s').trans hx

theorem ends_real {f : Except Errno Int → CallM Int}
    (hf : ∀ r : Except Errno Int, Op.allows (.real c) s r = true →
      Rests r (fun es => B (⟨.real c, r⟩ :: es)) (f r) (s.after r)) :
    Ends c B (real c >>= f) s := by
  refine all_answer (H := managerHandler) rfl fun (r : Except Errno Int) hallows => ?_
  refine (hf r hallows).mono fun es x s' ⟨hreal, hx⟩ => Iff.trans ?_ hx
  unfold Transparent
  rw [List.filter_cons_of_pos rfl, filter_real hreal]
  constructor
  · intro h
    obtain ⟨r', hr', hx⟩ := h
    cases hr'
    exact hx
  · exact fun h => ⟨r, rfl, h⟩

theorem errno_after (s : Manager) (r : Except Errno Int) :
    ∀ e, r = .error e → (s.after r).errno = e.code := by
  intro e he
  subst he
  rfl

/-- A call that only performs the real call. -/
theorem ends_last (hB : ∀ r : Except Errno Int, B [⟨.real c, r⟩]) :
    Ends c B (real c >>= fun r => pure (value r)) s :=
  ends_real fun r _ => rests_pure (errno_after s r) (hB r)

/-- A real call of another kind comes first. -/
theorem ends_other {c' : AppCall} {f : Except Errno Int → CallM Int} (hc : c' ≠ c)
    (hB : ∀ es, ¬ B es) : Ends c B (real c' >>= f) s := by
  refine all_answer (H := managerHandler) rfl fun (r : Except Errno Int) _ => ?_
  have htrue : ∀ {p : CallM Int} {s : Manager}, All managerHandler p s fun _ _ _ => True :=
    fun {p s} => all_iff.mpr fun _ _ _ _ => trivial
  refine htrue.mono fun es x s' _ => iff_of_false (fun h => ?_) (hB _)
  obtain ⟨r', hr', -⟩ := h
  rw [List.filter_cons_of_pos rfl] at hr'
  obtain ⟨hhead, -⟩ := List.cons.inj hr'
  cases hhead
  exact hc rfl

theorem ends_light_bind {α : Type} {p : CallM α} {f : α → CallM Int} (hp : Light p)
    (hB : Indifferent B) (hf : ∀ a s', Alike s s' → Ends c B (f a) s') : Ends c B (p >>= f) s := by
  refine hp.spec.bind (fun es e s' h => ?_) fun es a s' ⟨hreal, b, hb, halike, hes⟩ => ?_
  · obtain ⟨-, a, ha, -⟩ := h
    cases ha
  · refine (hf a s' halike).mono fun es' x s'' hx => ?_
    unfold Transparent
    rw [List.filter_append, filter_real hreal, List.nil_append]
    exact hx.trans (hB [] es es' hes).symm

theorem ends_whenAlive {p : CallM Int} (hp : s.isDead = false → Ends c B p s)
    (hB : s.isDead = true → ∀ r : Except Errno Int, B [⟨.real c, r⟩]) :
    Ends c B (whenAlive c p) s := by
  unfold whenAlive
  refine ends_reply (a := !s.isDead) rfl ?_
  change Ends c B _ s
  cases hdead : s.isDead with
  | false => exact hp hdead
  | true => exact ends_last (hB hdead)

/-- A lock is given back in the end. -/
theorem ends_then {o : Op} {p : CallM Int} {a : o.Answer} (hr : ∀ s', Op.reply o s' = some a)
    (hnext : ∀ s', (Op.next o s' a).errno = s'.errno) (hp : Ends c B p s) :
    Ends c B (p >>= fun r => call o >>= fun _ => pure r) s := by
  refine All.bind hp (fun es e s' h => h) fun es b s' h => all_reply (hr s') ?_
  change Transparent c (es ++ []) (.ok b) (Op.next o s' a) ↔ B (es ++ [])
  unfold Transparent
  rwa [List.append_nil, hnext]

/-- A call under the mutex for file operations. -/
theorem ends_fileOp {p : CallM Int} (hp : Ends c B p s) :
    Ends c B (lock .fileOp >>= fun _ => p >>= fun r => unlock .fileOp >>= fun _ => pure r) s :=
  ends_reply (a := ()) rfl (ends_then (a := ()) (fun _ => rfl) (fun _ => rfl) hp)

end

/-! ## The calls -/

section

variable {s : Manager}

theorem errno_unlockRange (file : Ptr) (g : Range) :
    All managerHandler (unlockRangeReporting file g) s
    fun es x s' => es = [] ∧ s'.errno = s.errno ∧ ∃ b, x = .ok b := by
  unfold unlockRangeReporting
  refine all_reply (r := (TokuBackup.unlockRange (s.source file).lockedRanges g).isSome) rfl ?_
  generalize (TokuBackup.unlockRange (s.source file).lockedRanges g).isSome = b
  cases b with
  | true => exact ⟨rfl, rfl, _, rfl⟩
  | false => exact all_reply (r := ()) rfl ⟨rfl, rfl, _, rfl⟩

/-- Giving back a range performs no call and keeps `errno`. -/
theorem rests_unlockRange {r : Except Errno Int} {B : List Event → Prop} {file : Ptr} {g : Range}
    {f : Bool → CallM Int} (hf : ∀ b s', s'.errno = s.errno → Rests r B (f b) s') :
    Rests r B (unlockRangeReporting file g >>= f) s := by
  refine (errno_unlockRange file g).bind (fun es e s' h => ?_) fun es b s' ⟨hes, herrno, _⟩ => ?_
  · obtain ⟨-, -, b, hb⟩ := h
    cases hb
  · rw [hes]
    exact hf b s' herrno

theorem sound_unlockRange {B : List Event → Prop} (hB : B []) (file : Ptr) (g : Range) :
    Sound B (unlockRangeReporting file g) s := by
  refine (errno_unlockRange file g).mono fun es x s' ⟨hes, _, b, hb⟩ => ?_
  rw [hes]
  exact ⟨by simp, iff_of_true ⟨b, hb⟩ hB⟩

theorem ends_read (fd nbyte : Nat) :
    Ends (.read fd nbyte) (fun _ => True) (managerRead fd nbyte) s := by
  unfold managerRead
  cases hmap : s.map fd with
  | none => exact ends_reply (reply_mapGet_none hmap) (ends_last fun _ => trivial)
  | some d =>
    refine ends_reply (reply_mapGet hmap) (ends_reply (a := ()) rfl ?_)
    refine ends_real fun r _ => ?_
    dsimp only [onlyIf]
    split
    · refine rests_reply (a := ()) rfl (rests_reply (a := ()) rfl ?_)
      exact rests_pure (errno_after s r) trivial
    · exact rests_reply (a := ()) rfl (rests_pure (errno_after s r) trivial)

theorem ends_lseek (fd : Nat) (offset : Int) (whence : Nat) :
    Ends (.lseek fd offset whence) (fun _ => True) (managerLseek fd offset whence) s := by
  unfold managerLseek
  cases hmap : s.map fd with
  | none => exact ends_reply (reply_mapGet_none hmap) (ends_last fun _ => trivial)
  | some d =>
    refine ends_reply (reply_mapGet hmap) (ends_reply (a := ()) rfl ?_)
    refine ends_real fun r _ => rests_reply (a := ()) rfl (rests_reply (a := ()) rfl ?_)
    exact rests_pure (errno_after s r) trivial

theorem ends_ftruncate (fd : Nat) (length : Int) :
    Ends (.ftruncate fd length) (fun _ => True) (managerFtruncate fd length) s := by
  unfold managerFtruncate
  cases hmap : s.map fd with
  | none => exact ends_reply (reply_mapGet_none hmap) (ends_last fun _ => trivial)
  | some d =>
    refine ends_reply (reply_mapGet hmap) (ends_reply (a := ()) rfl ?_)
    refine ends_real fun r _ => ?_
    cases r with
    | error e =>
      -- `errno` is saved and restored
      refine rests_reply (a := e.code) rfl (rests_unlockRange fun b s' _ => ?_)
      refine rests_reply (a := ()) rfl (rests_pure (fun e' he' => ?_) trivial)
      cases he'
      rfl
    | ok v =>
      dsimp only [value]
      split
      · have hB : Indifferent fun _ => True := fun _ _ _ _ => Iff.rfl
        rw [← Prog.bind_assoc]
        refine rests_of_sound (sound_light_bind ?_ hB fun _ s' _ => sound_unlockRange trivial _ _)
        exact light_withSession (light_captureFtruncate _ _)
      · refine rests_reply (a := _) rfl (rests_unlockRange fun b s' _ => ?_)
        exact rests_reply (a := ()) rfl (rests_pure (fun e he => by cases he) trivial)

/-- A value that is not negative fits in an `int`. -/
theorem toInt32_eq_iff {v : Int} (hv : 0 ≤ v) : toInt32 v = v ↔ v < 2 ^ 31 := by
  unfold toInt32
  rw [Int.bmod_eq_iff (by decide)]
  omega

theorem ends_pwrite (fd : Nat) (buf : List UInt8) (offset : Int) (hdead : s.isDead = false) :
    Ends (.pwrite fd buf offset) (fun es => Benign s es (.pwrite fd buf offset))
      (managerPwrite fd buf offset) s := by
  unfold managerPwrite
  cases hmap : s.map fd with
  | none =>
    refine ends_reply (reply_mapGet_none hmap) (ends_real fun r hallows => ⟨by simp, ?_⟩)
    cases r with
    | error e =>
      refine iff_of_true ⟨rfl, errno_after s _⟩ fun _ _ v hv => ?_
      cases List.mem_singleton.mp hv
    | ok v =>
      have hv : 0 ≤ v := of_decide_eq_true hallows
      constructor
      · intro h _ _ v' hv'
        cases List.mem_singleton.mp hv'
        exact (toInt32_eq_iff hv).mp (Except.ok.inj h.1)
      · intro h
        have hlt := h hdead hmap v (List.mem_singleton.mpr rfl)
        exact ⟨congrArg Except.ok ((toInt32_eq_iff hv).mpr hlt), errno_after s _⟩
  | some d =>
    refine ends_reply (reply_mapGet hmap) (ends_reply (a := ()) rfl ?_)
    refine ends_real fun r hallows => ?_
    have hB : ∀ es, Benign s es (.pwrite fd buf offset) := by
      intro es _ h
      rw [hmap] at h
      cases h
    cases r with
    | error e =>
      refine rests_reply (a := e.code) rfl (rests_unlockRange fun b s' _ => ?_)
      refine rests_reply (a := ()) rfl (rests_pure (fun e' he' => ?_) (hB _))
      cases he'
      rfl
    | ok v =>
      have hv : ¬ v < 0 := Int.not_lt.mpr (of_decide_eq_true hallows)
      dsimp only [value]
      rw [if_neg hv, ← Prog.bind_assoc]
      refine rests_of_sound (sound_light_bind ?_ ?_ fun _ s' _ => sound_unlockRange (hB _) _ _)
      · exact light_onlyIf (light_withSession (light_captureWrite _ _ _))
      · exact fun _ _ _ _ => iff_of_true (hB _) (hB _)

/-- The failures of the calls on the backup leave `errno` as it was. -/
def SameErrno (n : Int) (es : List Event) : Prop :=
  ∀ c e', (⟨.backup c, (.error e' : Except Errno Nat)⟩ : Event) ∈ es → e'.code = n

theorem sameErrno_nil (n : Int) : SameErrno n [] := by
  intro c e' h
  cases h

theorem errno_pwriteLoop (d : DestinationFile) (buf : List UInt8) (fuel nbyte : Nat)
    (offset : Int) :
    All managerHandler (pwriteLoop d buf fuel nbyte offset) s fun es _ s' =>
      s'.errno = s.errno ↔ SameErrno s.errno es := by
  induction fuel generalizing s nbyte offset with
  | zero => exact iff_of_true rfl (sameErrno_nil _)
  | succ fuel ih =>
    rw [pwriteLoop]
    split
    · exact iff_of_true rfl (sameErrno_nil _)
    · refine all_answer rfl fun (r : Except Errno Nat) _ => ?_
      cases r with
      | error e =>
        refine all_reply (r := ()) rfl ?_
        change e.code = s.errno ↔ SameErrno s.errno [_]
        constructor
        · intro h c e' hmem
          cases List.mem_singleton.mp hmem
          exact h
        · exact fun h => h _ e (List.mem_singleton.mpr rfl)
      | ok wr =>
        have hcons : ∀ {c es}, SameErrno s.errno
            (⟨.backup c, (.ok wr : Except Errno Nat)⟩ :: es) ↔ SameErrno s.errno es := by
          intro c es
          refine forall_congr' fun c' => forall_congr' fun e' => ?_
          rw [List.mem_cons, or_iff_right]
          intro h
          cases h
        change All managerHandler (if wr = 0 then _ else _) s _
        split
        · exact all_reply (r := ()) rfl (iff_of_true rfl (hcons.mpr (sameErrno_nil _)))
        · exact (ih _ _).mono fun es x s' h => h.trans hcons.symm

/-- The captured part of a write, with what it does to `errno`. -/
theorem errno_captured (file : Ptr) (buf : List UInt8) (offset : Int) :
    All managerHandler (withSession (captureWrite file buf offset)) s fun es _ s' =>
      s'.errno = s.errno ↔ SameErrno s.errno es := by
  unfold withSession
  refine all_reply (r := ()) rfl (all_reply (r := s.session) rfl ?_)
  change All _ _ s _
  cases s.session with
  | none => exact all_reply (r := ()) rfl (iff_of_true rfl (sameErrno_nil _))
  | some D =>
    unfold captureWrite
    rw [Prog.bind_assoc]
    refine all_reply (r := (s.source file).destinationFile) rfl ?_
    change All _ _ s _
    cases (s.source file).destinationFile with
    | none => exact all_reply (r := ()) rfl (iff_of_true rfl (sameErrno_nil _))
    | some d =>
      change All _ ((destinationPwrite d buf offset >>= fun _ => pure ()) >>= _) s _
      rw [Prog.bind_assoc]
      refine All.bind (errno_pwriteLoop _ _ _ _ _) (fun es e s' h => h) fun es a s' h => ?_
      refine all_reply (r := ()) rfl ?_
      change s'.errno = s.errno ↔ SameErrno s.errno (es ++ [])
      rwa [List.append_nil]

theorem ends_write (fd : Nat) (buf : List UInt8) :
    Ends (.write fd buf) (fun es => Benign s es (.write fd buf)) (managerWrite fd buf) s := by
  unfold managerWrite
  cases hmap : s.map fd with
  | none =>
    refine ends_reply (reply_mapGet_none hmap) (ends_last fun r e c e' _ h => ?_)
    cases List.mem_singleton.mp h
  | some d =>
    refine ends_reply (reply_mapGet hmap) (ends_reply (a := ()) rfl ?_)
    refine ends_reply (a := _) rfl (ends_reply (a := ()) rfl ?_)
    refine ends_real fun r _ => ?_
    cases r with
    | ok v =>
      have hB : ∀ es : List Event, (∀ e ∈ es, e.1.isReal = false) →
          Benign s (⟨.real (.write fd buf), (.ok v : Except Errno Int)⟩ :: es) (.write fd buf) := by
        intro es hreal e c e' h
        rw [List.mem_cons] at h
        rcases h with h | h
        · cases h
        · have := hreal _ h
          cases this
      have hrest : ∀ {s'} (offset : Int) (g : Range), Rests (.ok v)
          (fun es => Benign s (⟨.real (.write fd buf), .ok v⟩ :: es) (.write fd buf))
          (withSession (captureWrite d.source buf offset) >>= fun _ =>
            unlockRangeReporting d.source g >>= fun _ => pure v) s' := by
        intro s' offset g
        have hsound : Sound (fun _ => True) (withSession (captureWrite d.source buf offset) >>=
            fun _ => unlockRangeReporting d.source g) s' :=
          sound_light_bind (light_withSession (light_captureWrite _ _ _)) (fun _ _ _ _ => Iff.rfl)
            fun _ _ _ => sound_unlockRange trivial _ _
        rw [← Prog.bind_assoc]
        refine rests_of_sound (hsound.mono fun es x s'' ⟨hreal, hx⟩ => ⟨hreal, hx.trans ?_⟩)
        exact iff_of_true trivial (hB es hreal)
      dsimp only [onlyIf, value]
      split
      · exact rests_reply (a := ()) rfl (rests_reply (a := ()) rfl (hrest _ _))
      · exact rests_reply (a := ()) rfl (hrest _ _)
    | error e =>
      have hB : ∀ es : List Event, (∀ e ∈ es, e.1.isReal = false) →
          (Benign s (⟨.real (.write fd buf), (.error e : Except Errno Int)⟩ :: es) (.write fd buf) ↔
            SameErrno e.code es) := by
        intro es hreal
        constructor
        · exact fun h c e' hmem => h e c e' (List.mem_cons_self ..) (List.mem_cons_of_mem _ hmem)
        · intro h e₁ c e' hfail hmem
          rw [List.mem_cons] at hfail hmem
          rcases hfail with hfail | hfail
          · cases hfail
            rcases hmem with hmem | hmem
            · cases hmem
            · exact h c e' hmem
          · have := hreal _ hfail
            cases this
      dsimp only [onlyIf, value]
      rw [if_neg (by decide)]
      refine rests_reply (a := ()) rfl ?_
      refine All.bind ((light_withSession (light_captureWrite _ _ _)).spec.and
        (errno_captured d.source buf _)) (fun es x s' h => ?_)
          fun es a s' ⟨⟨hreal, _⟩, herrno⟩ => ?_
      · obtain ⟨⟨-, a, ha, -⟩, -⟩ := h
        cases ha
      · refine (errno_unlockRange _ _).bind (fun es' x s'' h => ?_)
          fun es' b s'' ⟨hes, hsame, _⟩ => ?_
        · obtain ⟨-, -, b, hb⟩ := h
          cases hb
        · subst hes
          have hnil : es ++ ([] ++ []) = es := by simp
          refine ⟨fun e' he' => hreal e' (by rwa [hnil] at he'), ?_⟩
          have herrno' : s''.errno = e.code ↔ SameErrno e.code es := by rwa [hsame]
          rw [hnil]
          refine Iff.trans ?_ (herrno'.trans (hB es hreal).symm)
          constructor
          · exact fun h => h.2 e rfl
          · intro h
            refine ⟨rfl, fun e' he' => ?_⟩
            cases he'
            exact h

/-- `ENOMEM` is reported before the real call. -/
theorem ends_noMemory {c : AppCall} {B : List Event → Prop} (e : Errno) (text : String)
    (hB : Indifferent B) (hlast : ∀ r : Except Errno Int, B [⟨.real c, r⟩]) :
    Ends c B (reportNoMemory e text >>= fun _ => real c >>= fun r => pure (value r)) s :=
  ends_light_bind (light_reportNoMemory e text) hB fun _ _ _ => ends_last hlast

theorem ends_rename (oldpath newpath : Path) :
    Ends (.rename oldpath newpath) (RenameSafe s) (managerRename oldpath newpath) s := by
  have hB := indifferent_renameSafe s
  unfold managerRename
  refine ends_answer rfl rfl fun (r : Except Errno Path) _ => ?_
  have hcons : (fun es => RenameSafe s (⟨.realpath .rename oldpath, r⟩ :: es)) = RenameSafe s :=
    funext fun es => propext (renameSafe_cons rfl)
  rw [hcons]
  cases r with
  | error e =>
    exact ends_noMemory e _ hB fun r => (renameSafe_cons rfl).mpr (renameSafe_of_none (by simp))
  | ok full_old_path =>
    refine ends_real fun r _ => ?_
    have hcons : (fun es => RenameSafe s (⟨.real (.rename oldpath newpath), r⟩ :: es)) =
      RenameSafe s :=
      funext fun es => propext (renameSafe_cons rfl)
    rw [hcons]
    cases r with
    | error e => exact rests_pure (errno_after s _) (renameSafe_of_none (by simp))
    | ok v =>
      refine rests_of_sound ?_
      change Sound (RenameSafe s) _ s
      dsimp only [onlyIf]
      split
      · refine sound_reply (r := ()) rfl (sound_reply (r := s.session) rfl ?_)
        change Sound (RenameSafe s) _ s
        cases s.session with
        | none => exact sound_light (only_last rfl) hB (renameSafe_of_none (by simp))
        | some D =>
          exact sound_then_light (sound_captureRename _ _ _) hB fun _ => only_last rfl
      · exact sound_pure (renameSafe_of_none (by simp))

theorem unlinkSafe_referenced (full_path : Path) (file : Ptr) :
    UnlinkSafe (referenced s file) full_path file ↔ UnlinkSafe s full_path file := by
  unfold UnlinkSafe Creatable
  rw [referenced_self]
  rfl

theorem ends_unlink (path : Path) :
    Ends (.unlink path) (fun es => Benign s es (.unlink path)) (managerUnlink path) s := by
  have hB : Indifferent fun es => Benign s es (.unlink path) := by
    intro pre es post hes
    refine forall_congr' fun full => forall_congr' fun p => ?_
    rw [mem_light hes rfl]
  -- no file is found when the table is not searched
  have hnone : ∀ es, (∀ full p, (⟨.tableGet full, some p⟩ : Event) ∉ es) →
    Benign s es (.unlink path) :=
    fun es h full p hmem => absurd hmem (h full p)
  unfold managerUnlink
  refine ends_answer rfl rfl fun (r : Except Errno Path) _ => ?_
  cases r with
  | error e =>
    refine ends_noMemory e _ (hB.cons _) fun r => hnone _ fun full p hmem => ?_
    rw [List.mem_cons, List.mem_singleton] at hmem
    rcases hmem with hmem | hmem
    · cases hmem
    · cases hmem
  | ok full_path =>
    refine ends_real fun r _ => ?_
    have hreal : Benign s [⟨.realpath .unlink path, .ok full_path⟩, ⟨.real (.unlink path), r⟩]
        (.unlink path) := by
      refine hnone _ fun full p hmem => ?_
      rw [List.mem_cons, List.mem_singleton] at hmem
      rcases hmem with hmem | hmem
      · cases hmem
      · cases hmem
    cases r with
    | error e =>
      dsimp only [value]
      rw [if_pos (by decide)]
      exact rests_pure (errno_after s _) hreal
    | ok v =>
      dsimp only [value]
      split
      · exact rests_pure (errno_after s _) hreal
      · suffices h : Rests (.ok v) (fun es => Benign s (⟨.realpath .unlink path, .ok full_path⟩ ::
            ⟨.real (.unlink path), .ok v⟩ :: es) (.unlink path))
            ((lock .table >>= fun _ => getOrCreate full_path >>= fun source =>
              unlock .table >>= fun _ => rdlock >>= fun _ => lock .table >>= fun _ =>
              unlinkSection full_path source >>= fun _ => unlock .table >>= fun _ => rdunlock) >>=
              fun _ => pure v) s by
          simp only [Prog.bind_assoc] at h
          exact h
        have hB' :=
          (hB.cons ⟨.realpath .unlink path, .ok full_path⟩).cons ⟨.real (.unlink path), .ok v⟩
        refine rests_of_sound
          (sound_reply (r := ()) rfl (sound_getOrCreate (fun p hp => ?_) fun p => ?_))
        · refine sound_reply (r := ())
            rfl (sound_reply (r := ()) rfl (sound_reply (r := ()) rfl ?_))
          refine sound_then_light (sound_unlinkSection (hB'.cons _) ?_ ?_ ?_) (hB'.cons _)
            fun _ => only_call rfl fun _ => only_last rfl
          · change Benign s _ _ ↔ UnlinkSafe (referenced s p) full_path p
            refine Iff.trans ?_ (unlinkSafe_referenced full_path p).symm
            constructor
            · exact fun h => h full_path p (by simp)
            · intro h full p' hmem
              simp only [List.mem_cons, List.not_mem_nil, or_false] at hmem
              rcases hmem with hmem | hmem | hmem
              · cases hmem
              · cases hmem
              · cases hmem
                exact h
          · change ((referenced s p).source p).fullPath ≠ none
            rw [referenced_self]
            exact hp.symm ▸ Option.some_ne_none _
          · change 0 < ((referenced s p).source p).referenceCount
            rw [referenced_self]
            exact Nat.succ_pos _
        · refine sound_reply (r := ())
            rfl (sound_reply (r := ()) rfl (sound_reply (r := ()) rfl ?_))
          refine sound_then_light (sound_unlinkSection ((hB'.cons _).cons _) ?_ ?_ ?_)
            ((hB'.cons _).cons _)
            fun _ => only_call rfl fun _ => only_last rfl
          · refine iff_of_true (hnone _ fun full p' hmem => ?_) fun D _ _ _ _ h => ?_
            · simp only [List.mem_cons, List.not_mem_nil, or_false] at hmem
              rcases hmem with hmem | hmem | hmem | hmem
              · cases hmem
              · cases hmem
              · cases hmem
              · cases hmem
            · change ((referenced (created s p full_path) p).source p).unlinked = true at h
              rw [referenced_self, created_self] at h
              cases h
          · change ((referenced (created s p full_path) p).source p).fullPath ≠ none
            rw [referenced_self, created_self]
            exact Option.some_ne_none _
          · change 0 < ((referenced (created s p full_path) p).source p).referenceCount
            rw [referenced_self]
            exact Nat.succ_pos _

theorem rests_light_bind {v : Int} {B : List Event → Prop} {α : Type} {p : CallM α}
    {f : α → CallM Int} (hp : Light p) (hB : Indifferent B)
    (hf : ∀ a s', Alike s s' → Rests (.ok v) B (f a) s') : Rests (.ok v) B (p >>= f) s := by
  refine hp.spec.bind (fun es e s' h => ?_) fun es a s' ⟨hreal, b, hb, halike, hes⟩ => ?_
  · obtain ⟨-, a, ha, -⟩ := h
    cases ha
  · refine (hf a s' halike).mono fun es' x s'' ⟨hreal', hx⟩ => ⟨?_, ?_⟩
    · rw [List.forall_mem_append]
      exact ⟨hreal, hreal'⟩
    · exact hx.trans (hB [] es es' hes).symm

/-- The end of `truncate` in a session, with the range that it has locked. -/
theorem rests_truncate {r : Except Errno Int} {B : List Event → Prop} {file : Ptr} {g : Range}
    {path : Path} {length : Int} (hB : B []) (hmem : g ∈ (s.source file).lockedRanges)
    (hcount : 0 < (s.source file).referenceCount) (herrno : ∀ e, r = .error e → s.errno = e.code) :
    Rests r B (unlockRangeReporting file g >>= fun unlocked => removeReference file >>= fun _ =>
      if unlocked = true then pure (value r)
      else real (.truncate path length) >>= fun r => pure (value r)) s := by
  unfold unlockRangeReporting
  rw [Prog.bind_assoc]
  refine rests_reply (unlockRange_found hmem) ?_
  change Rests r B (removeReference file >>= fun _ => pure (value r)) _
  unfold removeReference
  rw [Prog.bind_assoc]
  have hcount' : ((unlockedRange s file g).source file).referenceCount =
      (s.source file).referenceCount := by
    unfold unlockedRange
    rw [Manager.source_modify_self]
  refine rests_reply (a := (s.source file).referenceCount) (congrArg some hcount') ?_
  rw [if_pos hcount]
  exact rests_reply (a := ()) rfl (rests_pure herrno hB)

/-- `truncate` of a file in the session: it is transparent when the real call is for `path`
itself and the file is in the table. -/
theorem ends_truncateInSession {B : List Event → Prop} {path full_path dest : Path} {length : Int}
    (hindifferent : Indifferent B)
    (hfound : full_path = path → ∀ (p : Ptr) (r : Except Errno Int),
      B [⟨.tableGet dest, some p⟩, ⟨.real (.truncate full_path length), r⟩])
    (hB : ∀ es, B es → full_path = path ∧ ∃ b p, (⟨.tableGet b, some p⟩ : Event) ∈ es) :
    Ends (.truncate path length) B (truncateInSession path full_path dest length) s := by
  unfold truncateInSession
  refine ends_reply (a := ()) rfl (ends_answer rfl rfl fun (found : Option Ptr) _ => ?_)
  cases found with
  | none =>
    refine iff_of_false (fun h => ?_) fun h => ?_
    · obtain ⟨r, -, h, -⟩ := h
      cases h
    · obtain ⟨-, b, p, hmem⟩ := hB _ h
      cases List.mem_singleton.mp hmem
  | some p =>
    refine ends_reply (a := ()) rfl (ends_reply (a := ()) rfl (ends_reply (a := ()) rfl ?_))
    by_cases hpath : full_path = path
    · subst hpath
      refine ends_real fun r _ => ?_
      have hnil := hfound rfl p r
      -- what holds of the file from the lock on
      have hfile : (lockedRange (referenced s p) p ⟨u64 length, llongMax⟩).source p =
          { s.source p with
            referenceCount := (s.source p).referenceCount + 1
            lockedRanges := (s.source p).lockedRanges ++ [⟨u64 length, llongMax⟩] } := by
        unfold lockedRange
        rw [Manager.source_modify_self, referenced_self]
      cases r with
      | error e =>
        refine rests_truncate hnil ?_ ?_ (errno_after _ _)
        · change _ ∈ ((lockedRange (referenced s p) p _).source p).lockedRanges
          rw [hfile]
          exact List.mem_append_right _ (List.mem_singleton.mpr rfl)
        · change 0 < ((lockedRange (referenced s p) p _).source p).referenceCount
          rw [hfile]
          exact Nat.succ_pos _
      | ok v =>
        have hlight : Light (onlyIf (value (.ok v) = 0) (captureTruncate dest length)) :=
          light_onlyIf (light_captureTruncate _ _)
        refine rests_light_bind hlight ((hindifferent.cons _).cons _) fun _ s' halike => ?_
        have hsame : SameFile ((lockedRange (referenced s p) p _).source p) (s'.source p) :=
          halike.source p
        refine rests_truncate hnil ?_ ?_ (fun e he => by cases he)
        · rw [hsame.lockedRanges, hfile]
          exact List.mem_append_right _ (List.mem_singleton.mpr rfl)
        · rw [hsame.referenceCount, hfile]
          exact Nat.succ_pos _
    · refine ends_other (fun h => hpath ?_) fun es h => hpath (hB _ h).1
      injection h

theorem ends_truncate (path : Path) (length : Int) (hdead : s.isDead = false) :
    Ends (.truncate path length) (fun es => Benign s es (.truncate path length))
      (managerTruncate path length) s := by
  have hindifferent : Indifferent fun es => Benign s es (.truncate path length) := by
    intro pre es post hes
    refine forall_congr' fun _ => forall_congr' fun D => forall_congr' fun full => ?_
    rw [mem_light hes rfl]
    refine forall_congr' fun _ => forall_congr' fun _ => forall_congr' fun _ => ?_
    refine and_congr_right fun _ => exists_congr fun b => exists_congr fun p => ?_
    exact mem_light hes rfl
  unfold managerTruncate
  refine ends_answer rfl rfl fun (r : Except Errno Path) _ => ?_
  cases r with
  | error e =>
    refine ends_reply (a := ()) rfl (ends_last fun r _ D full _ hmem => ?_)
    rw [List.mem_cons, List.mem_singleton] at hmem
    rcases hmem with hmem | hmem
    · cases hmem
    · cases hmem
  | ok full_path =>
    refine ends_reply (a := ()) rfl (ends_reply (a := s.session) rfl ?_)
    change Ends _ _ _ s
    -- without a session, or for a file in no source directory
    have hplain : (∀ D, s.session = some D → D.isPrefixOfRealpath full_path = false) →
        Ends (.truncate path length)
          (fun es => Benign s (⟨.realpath .truncate path, .ok full_path⟩ :: es)
            (.truncate path length))
          (real (.truncate path length) >>= fun r => rdunlock >>= fun _ => pure (value r)) s := by
      intro houtside
      refine ends_real fun r _ => rests_reply (a := ()) rfl (rests_pure (errno_after s r) ?_)
      intro _ D full hD hmem hinside
      rw [List.mem_cons, List.mem_singleton] at hmem
      rcases hmem with hmem | hmem
      · cases hmem
        rw [houtside D hD] at hinside
        cases hinside
      · cases hmem
    cases hsession : s.session with
    | none =>
      refine hplain fun D hD => ?_
      rw [hsession] at hD
      cases hD
    | some D =>
      dsimp only
      cases hinside : D.isPrefixOfRealpath full_path with
      | false =>
        refine hplain fun D' hD => ?_
        rw [hsession] at hD
        cases hD
        exact hinside
      | true =>
        rw [if_pos rfl]
        obtain ⟨dest, hdest⟩ := translate_eq hinside
        rw [hdest, pure_eq, done_bind]
        have hB : ∀ es, Benign s (⟨.realpath .truncate path, .ok full_path⟩ :: es)
            (.truncate path length) →
              full_path = path ∧ ∃ b p, (⟨.tableGet b, some p⟩ : Event) ∈ es := by
          intro es h
          obtain ⟨hpath, b, p, hmem⟩ := h hdead D full_path hsession (List.mem_cons_self ..) hinside
          rw [List.mem_cons] at hmem
          refine ⟨hpath, b, p, hmem.resolve_left fun h => ?_⟩
          cases h
        refine ends_then (a := ()) (fun _ => rfl) (fun _ => rfl) ?_
        refine ends_truncateInSession (hindifferent.cons _) (fun hpath p r => ?_) hB
        subst hpath
        intro _ D' full _ hmem _
        refine ⟨?_, dest, p, by simp⟩
        simp only [List.mem_cons, List.not_mem_nil, or_false] at hmem
        rcases hmem with hmem | hmem | hmem
        · cases hmem
          rfl
        · cases hmem
        · cases hmem

theorem resolved_real (session : Option DirectorySet) (c : AppCall) (r : Except Errno Int) :
    (fun es => Resolved session (⟨.real c, r⟩ :: es)) = Resolved session := by
  funext es
  refine propext (forall_congr' fun path => forall_congr' fun r' => ?_)
  rw [List.mem_cons, or_iff_right]
  intro h
  cases h

/-- A method of the manager that a path is resolved twice in. -/
theorem sound_ifAlive {method : CallM Unit} {session : Option DirectorySet}
    (h : Sound (Resolved session) method s) : Sound (Resolved session) (ifAlive method) s := by
  unfold ifAlive
  refine sound_reply (r := !s.isDead) rfl ?_
  change Sound _ _ s
  split
  · exact h
  · exact sound_pure (resolved_nil _)

theorem sound_onlyIf {c : Prop} [Decidable c] {body : CallM Unit} {session : Option DirectorySet}
    (h : Sound (Resolved session) body s) : Sound (Resolved session) (onlyIf c body) s := by
  unfold onlyIf
  split
  · exact h
  · exact sound_pure (resolved_nil _)

/-- An `open` whose real call has its `mode`. -/
theorem ends_openSame (file : Path) (oflag : Nat) {creat : Bool} {mode : Option Nat}
    (hmode : creat = false → mode = none) :
    Ends (.openFile file oflag creat mode) (Resolved s.session)
      (interposedOpen file oflag creat mode) s := by
  have hB := indifferent_resolved s.session
  have hopen : ∀ (fd : Nat) (s' : Manager), s'.session = s.session →
      Sound (Resolved s.session) (ifAlive (managerOpen fd file oflag)) s' := by
    intro fd s' hs
    exact sound_ifAlive (hs ▸ sound_managerOpen fd file oflag)
  unfold interposedOpen
  cases creat with
  | true =>
    rw [if_pos rfl]
    refine ends_reply (a := ()) rfl (ends_real fun r _ => ?_)
    rw [resolved_real]
    cases r with
    | error e =>
      dsimp only [onlyIf, value]
      rw [if_neg (by decide)]
      exact rests_reply (a := ()) rfl (rests_pure (errno_after s _) (resolved_nil _))
    | ok v =>
      dsimp only [value]
      rw [← Prog.bind_assoc]
      refine rests_of_sound
        (sound_then_light (sound_onlyIf (hopen _ _ rfl)) hB fun _ => only_last rfl)
  | false =>
    rw [if_neg Bool.false_ne_true, hmode rfl]
    refine ends_real fun r hallows => ?_
    rw [resolved_real]
    cases r with
    | error e =>
      dsimp only [value]
      rw [if_neg (by decide)]
      exact rests_pure (errno_after s _) (resolved_nil _)
    | ok v =>
      have hv : 0 ≤ v := of_decide_eq_true hallows
      dsimp only [value]
      rw [if_pos hv]
      refine rests_answer rfl rfl fun (kind : Except Errno FdKind) _ => ?_
      have hcons : (fun es => Resolved s.session (⟨.fstat v.toNat, kind⟩ :: es)) =
        Resolved s.session :=
        funext fun es => propext (@resolved_append _ [_] es (by simp [Op.aside]))
      rw [hcons]
      cases kind with
      | error e => exact rests_pure (fun e he => by cases he) (resolved_nil _)
      | ok kind => exact rests_of_sound (sound_onlyIf (hopen _ _ rfl))

/-- Without `O_CREAT` the `mode` is not handed on. -/
theorem ends_open (file : Path) (oflag : Nat) (creat : Bool) (mode : Option Nat) :
    Ends (.openFile file oflag creat mode)
      (fun es => (creat = false → mode = none) ∧ Resolved s.session es)
      (interposedOpen file oflag creat mode) s := by
  by_cases hmode : creat = false → mode = none
  · have hB : (fun es => (creat = false → mode = none) ∧ Resolved s.session es) =
        Resolved s.session :=
      funext fun es => propext (and_iff_right hmode)
    rw [hB]
    exact ends_openSame file oflag hmode
  · obtain ⟨hcreat, hsome⟩ := Classical.not_imp.mp hmode
    subst hcreat
    unfold interposedOpen
    rw [if_neg Bool.false_ne_true]
    refine ends_other (fun h => hsome ?_) fun es h => hmode h.1
    injection h with _ _ _ h
    exact h.symm

theorem ends_mkdir (pathname : Path) (mode : Nat) :
    Ends (.mkdir pathname mode) (Resolved s.session) (interposed (.mkdir pathname mode)) s := by
  unfold interposed
  refine ends_real fun r _ => ?_
  rw [resolved_real]
  cases r with
  | error e =>
    dsimp only [onlyIf, value]
    rw [if_neg (by decide)]
    exact rests_pure (errno_after s _) (resolved_nil _)
  | ok v =>
    exact rests_of_sound (sound_onlyIf (sound_ifAlive (sound_managerMkdir pathname)))

theorem ends_close (fd : Nat) :
    Ends (.close fd) (fun es => Benign s es (.close fd)) (interposed (.close fd)) s := by
  change Ends _ _ (ifAlive (managerClose fd) >>= fun _ =>
    real (.close fd) >>= fun r => pure (value r)) s
  unfold ifAlive
  rw [Prog.bind_assoc]
  refine ends_reply (a := !s.isDead) rfl ?_
  change Ends _ _ _ s
  cases hdead : s.isDead with
  | true =>
    refine ends_last fun r h => ?_
    rw [hdead] at h
    cases h
  | false =>
    refine All.bind (sound_managerClose fd) (fun es e s' ⟨hreal, hx⟩ => ?_)
      fun es a s' ⟨hreal, hx⟩ => ?_
    · refine iff_of_false (fun h => ?_) fun h => ?_
      · obtain ⟨r, -, h, -⟩ := h
        cases h
      · obtain ⟨a, ha⟩ := hx.mpr (h hdead)
        cases ha
    · have hB : Benign s [] (.close fd) := fun _ => hx.mp ⟨a, rfl⟩
      have h : Ends (.close fd) (fun _ => True) (real (.close fd) >>= fun r => pure (value r)) s' :=
        ends_last fun _ => trivial
      refine h.mono fun es' x s'' h => ?_
      unfold Transparent
      rw [List.filter_append, filter_real hreal, List.nil_append]
      exact h.trans (iff_of_true trivial hB)

/-! ## The main results -/

/-- A call is transparent exactly when it is benign. -/
theorem ends_interposed (c : AppCall) : Ends c (fun es => Benign s es c) (interposed c) s := by
  have htrue : ∀ r : Except Errno Int, (fun _ : List Event => True) [⟨.real c, r⟩] :=
    fun _ => trivial
  cases c with
  | openFile file oflag creat mode => exact ends_open file oflag creat mode
  | close fd => exact ends_close fd
  | read fd nbyte => exact ends_whenAlive (fun _ => ends_read fd nbyte) fun _ => htrue
  | write fd buf =>
    refine ends_whenAlive (fun _ => ends_write fd buf) fun _ r e c e' _ hmem => ?_
    cases List.mem_singleton.mp hmem
  | pwrite fd buf offset =>
    refine ends_whenAlive (fun hdead => ends_pwrite fd buf offset hdead) fun hdead r h => ?_
    rw [hdead] at h
    cases h
  | lseek fd offset whence =>
    exact ends_whenAlive (fun _ => ends_lseek fd offset whence) fun _ => htrue
  | ftruncate fd length => exact ends_whenAlive (fun _ => ends_ftruncate fd length) fun _ => htrue
  | truncate path length =>
    refine ends_whenAlive (fun hdead => ends_truncate path length hdead) fun hdead r h => ?_
    rw [hdead] at h
    cases h
  | rename oldpath newpath =>
    refine ends_whenAlive (fun _ => ends_fileOp (ends_rename oldpath newpath)) fun _ r => ?_
    exact (renameSafe_cons rfl).mpr (renameSafe_of_none (by simp))
  | unlink path =>
    refine ends_whenAlive (fun _ => ends_fileOp (ends_unlink path)) fun _ r full p hmem => ?_
    cases List.mem_singleton.mp hmem
  | mkdir pathname mode => exact ends_mkdir pathname mode

end

/-! ## Walks of the table -/

/-- The operation walks a chain of the table. -/
def Op.walks : Op → Bool
  | .tableGet _ => true
  | .tablePut _ => true
  | .tableRemove _ _ => true
  | _ => false

/-- A call of the application in which any walk of a chain may meet a deleted source file, which
ends the process. -/
structure WalkedStep where
  call : AppCall
  before : Manager
  events : List (Sigma (Guarded Op.Answer))
  result : Except Fault Int
  after : Manager

namespace WalkedStep

/-- The step is an execution of the interposed call. -/
def Runs (st : WalkedStep) : Prop :=
  exec managerHandler.hazard ((interposed st.call).hazard Op.walks .chain) st.before st.events =
    some (st.result, st.after)

/-- The step with its operations only. -/
def plain (st : WalkedStep) : CallStep :=
  ⟨st.call, st.before, st.events.filterMap performed, st.result, st.after⟩

def IsTransparent (st : WalkedStep) : Prop :=
  Transparent st.call st.plain.events st.result st.after

/-- The call is benign, and no walk meets a deleted source file. -/
def Harmless (st : WalkedStep) : Prop :=
  Clear st.events ∧ Benign st.before st.plain.events st.call

theorem isTransparent_iff {st : WalkedStep} (h : st.Runs) : st.IsTransparent ↔ st.Harmless := by
  have hall := All.hazard (e := Fault.chain) Op.walks (ends_interposed (s := st.before) st.call)
  rcases all_iff.mp hall _ _ _ h with ⟨hclear, hiff⟩ | ⟨hclear, hx⟩
  · exact hiff.trans (and_iff_right hclear).symm
  · refine iff_of_false (fun htransparent => ?_) fun hharmless => hclear hharmless.1
    obtain ⟨r, -, hr, -⟩ := htransparent
    rw [hx] at hr
    cases hr

end WalkedStep

/-- What the application sees of a call: what it returns, and its `errno` when it fails. -/
def CallStep.Shows (st : CallStep) (r : Except Errno Int) : Prop :=
  st.result = .ok (value r) ∧ ∀ e, r = .error e → st.after.errno = e.code

section

variable {W : Type}

/-- The files of the application, with its calls performed on them one after the other. -/
def plainRun (perform : AppCall → W → Except Errno Int × W) :
    List AppCall → W → List (Except Errno Int) × W
  | [], w => ([], w)
  | c :: cs, w =>
    let (r, w) := perform c w
    let (rs, w) := plainRun perform cs w
    (r :: rs, w)

/-- The real calls among the events, performed on the files; they have to have the results that
the events say. -/
def realRun (perform : AppCall → W → Except Errno Int × W) : List Event → W → Option W
  | [], w => some w
  | e :: es, w =>
    match e with
    | ⟨.real c, (r : Except Errno Int)⟩ =>
      if (perform c w).1 = r then realRun perform es (perform c w).2 else none
    | _ => realRun perform es w

variable {perform : AppCall → W → Except Errno Int × W}

theorem realRun_real (c : AppCall) (r : Except Errno Int) (es : List Event) (w : W) :
    realRun perform (⟨.real c, r⟩ :: es) w =
      if (perform c w).1 = r then realRun perform es (perform c w).2 else none := rfl

theorem realRun_append (es es' : List Event) (w : W) :
    realRun perform (es ++ es') w = (realRun perform es w).bind (realRun perform es') := by
  induction es generalizing w with
  | nil => rfl
  | cons e es ih =>
    obtain ⟨o, r⟩ := e
    cases o with
    | real c =>
      change Except Errno Int at r
      rw [List.cons_append, realRun_real, realRun_real]
      split
      · exact ih _
      · rfl
    | _ => exact ih w

theorem realRun_filter (es : List Event) (w : W) :
    realRun perform (es.filter fun e => e.1.isReal) w = realRun perform es w := by
  induction es generalizing w with
  | nil => rfl
  | cons e es ih =>
    obtain ⟨o, r⟩ := e
    cases o with
    | real c =>
      change Except Errno Int at r
      rw [List.filter_cons_of_pos rfl, realRun_real, realRun_real]
      split
      · exact ih _
      · rfl
    | _ => exact ih w

/-- A transparent call does to the files what the real call does. -/
theorem realRun_transparent {c : AppCall} {es : List Event} {x : Except Fault Int} {s' : Manager}
    (h : Transparent c es x s') {w w' : W} (hrun : realRun perform es w = some w') :
    w' = (perform c w).2 ∧ x = .ok (value (perform c w).1) ∧
      ∀ e, (perform c w).1 = .error e → s'.errno = e.code := by
  obtain ⟨r, hes, hx, herrno⟩ := h
  rw [← realRun_filter, hes, realRun_real] at hrun
  obtain ⟨hr, hrun⟩ := Option.ite_none_right_eq_some.mp hrun
  cases hrun
  rw [hr]
  exact ⟨rfl, hx, herrno⟩

theorem plainRun_of_transparent {steps : List CallStep}
    (h : ∀ st ∈ steps, Transparent st.call st.events st.result st.after) {w w' : W}
    (hrun : realRun perform (steps.flatMap CallStep.events) w = some w') :
    w' = (plainRun perform (steps.map CallStep.call) w).2 ∧
      List.Forall₂ CallStep.Shows steps (plainRun perform (steps.map CallStep.call) w).1 := by
  induction steps generalizing w with
  | nil =>
    cases hrun
    exact ⟨rfl, List.Forall₂.nil⟩
  | cons st steps ih =>
    rw [List.forall_mem_cons] at h
    rw [List.flatMap_cons, realRun_append] at hrun
    obtain ⟨w₁, hfirst, hrun⟩ := Option.bind_eq_some_iff.mp hrun
    obtain ⟨hw, hshows⟩ := realRun_transparent h.1 hfirst
    subst hw
    obtain ⟨hw', hrest⟩ := ih h.2 hrun
    exact ⟨hw', List.Forall₂.cons hshows hrest⟩

/-- In every run of interposed calls, whatever becomes of the manager and of the table between
them, all calls are transparent exactly when all are harmless; and then the application and its
files are as in the run without the library. -/
theorem transparent_iff (perform : AppCall → W → Except Errno Int × W) {steps : List WalkedStep}
    (hruns : ∀ st ∈ steps, st.Runs) :
    ((∀ st ∈ steps, st.IsTransparent) ↔ ∀ st ∈ steps, st.Harmless) ∧
    ((∀ st ∈ steps, st.Harmless) → ∀ w w',
      realRun perform (steps.flatMap fun st => st.plain.events) w = some w' →
        w' = (plainRun perform (steps.map WalkedStep.call) w).2 ∧
          List.Forall₂ (fun st r => st.plain.Shows r) steps
            (plainRun perform (steps.map WalkedStep.call) w).1) := by
  have hiff : ∀ st ∈ steps, (st.IsTransparent ↔ st.Harmless) :=
    fun st hst => WalkedStep.isTransparent_iff (hruns st hst)
  refine ⟨forall₂_congr hiff, fun hharmless w w' hrun => ?_⟩
  have hplain : ∀ st ∈ steps.map WalkedStep.plain,
      Transparent st.call st.events st.result st.after := by
    intro st' hst'
    obtain ⟨st, hst, rfl⟩ := List.mem_map.mp hst'
    exact (hiff st hst).mpr (hharmless st hst)
  have hcalls : (steps.map WalkedStep.plain).map CallStep.call = steps.map WalkedStep.call :=
    List.map_map
  have hreal : realRun perform ((steps.map WalkedStep.plain).flatMap CallStep.events) w =
      some w' := by rwa [List.flatMap_map]
  have hresult := plainRun_of_transparent hplain hreal
  rw [hcalls, List.forall₂_map_left_iff] at hresult
  exact hresult

end

/-- A file is created during a session. -/
def creatingOpen : List (Sigma (Guarded Op.Answer)) :=
  [⟨.inl (.real (.openFile "/s/x".toList 65 true (some 438))), (.ok 3 : Except Errno Int)⟩,
    ⟨.inl (.fstat 3), (.ok .regular : Except Errno FdKind)⟩,
    ⟨.inl (.realpath .setupDescription "/s/x".toList), (.ok "/s/x".toList : Except Errno Path)⟩,
    ⟨.inr (.tableGet "/s/x".toList), false⟩,
    ⟨.inl (.tableGet "/s/x".toList), (none : Option Ptr)⟩,
    ⟨.inl (.newFile "/s/x".toList), (1 : Ptr)⟩,
    ⟨.inr (.tablePut (1 : Ptr)), false⟩,
    ⟨.inl (.realpath .isPrefix "/s/x".toList), (.ok "/s/x".toList : Except Errno Path)⟩,
    ⟨.inl (.realpath .translatePrefix "/s/x".toList), (.ok "/s/x".toList : Except Errno Path)⟩,
    ⟨.inl (.backup (.stat "/b/x".toList)), (.ok 0 : Except Errno Nat)⟩,
    ⟨.inl (.backup (.openFile "/b/x".toList)), (.ok 7 : Except Errno Nat)⟩]

theorem transparent_creatingOpen : ∃ st : WalkedStep, st.Runs ∧ st.events = creatingOpen ∧
    st.IsTransparent := by
  let c : AppCall := .openFile "/s/x".toList 65 true (some 438)
  have hrun : ∃ s', exec managerHandler.hazard ((interposed c).hazard Op.walks .chain)
      (capturing oneDirectory) creatingOpen = some (.ok 3, s') := ⟨_, rfl⟩
  obtain ⟨s', hrun⟩ := hrun
  let st : WalkedStep := ⟨c, capturing oneDirectory, creatingOpen, .ok 3, s'⟩
  have hruns : ∀ st' ∈ [st], st'.Runs := by
    intro st' hst'
    cases List.mem_singleton.mp hst'
    exact hrun
  have hiff := (transparent_iff (fun _ (w : Nat) => (.ok 3, w + 1)) hruns).1
  refine ⟨st, hrun, rfl, hiff.mpr (fun st' hst' => ?_) st (List.mem_singleton.mpr rfl)⟩
  cases List.mem_singleton.mp hst'
  refine ⟨fun o hmem => ?_, fun h => (Bool.noConfusion h), fun path r hmem => ?_⟩
  · simp only [st, creatingOpen, List.mem_cons, List.not_mem_nil, or_false] at hmem
    rcases hmem with h | h | h | h | h | h | h | h | h | h | h <;> cases h
  · change _ ∈ [_, _, _, _, _, _, _, _, _] at hmem
    simp only [List.mem_cons, List.not_mem_nil, or_false] at hmem
    rcases hmem with h | h | h | h | h | h | h | h | h <;> cases h
    exact ⟨_, _, rfl, rfl, rfl⟩

/-- A file in the source directory is truncated by its name during a session. -/
theorem not_transparent_truncate : ¬ ∀ st : WalkedStep, st.Runs → st.IsTransparent := by
  intro h
  let c : AppCall := .truncate "/s/x".toList 0
  let es : List (Sigma (Guarded Op.Answer)) :=
    [⟨.inl (.realpath .truncate "/s/x".toList), (.ok "/s/x".toList : Except Errno Path)⟩,
      ⟨.inr (.tableGet "/b/x".toList), false⟩,
      ⟨.inl (.tableGet "/b/x".toList), (none : Option Ptr)⟩]
  have hrun : ∃ s', exec managerHandler.hazard ((interposed c).hazard Op.walks .chain)
      (capturing oneDirectory) es = some (.error .pointer, s') := ⟨_, rfl⟩
  obtain ⟨s', hrun⟩ := hrun
  obtain ⟨r, -, hx, -⟩ := h ⟨c, capturing oneDirectory, es, .error .pointer, s'⟩ hrun
  cases hx

end TokuBackup.Interpose
