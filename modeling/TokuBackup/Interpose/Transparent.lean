import TokuBackup.Interpose.Aside

/-!
# What the application sees

When an interposed call is the real call to the application: it performs the real call once,
with the application's arguments, and has its result and its `errno`. `Benign` says for each
call what has to be the case, in the state before the call and in the answers of the system
calls and of the table; `transparent_iff` shows that it is exactly that, as long as no walk of
a chain of the table meets a deleted source file.

The proofs follow a call up to its real call with `Ends`, and from there on with `Rests`. What
may end the process in between is the subject of `Sound`.
-/

namespace TokuBackup.Interpose

open Kernel Table Lib Prog
open DoBackup (Errno)

/-! ## Transparent calls -/

def Op.isReal : Op → Bool
  | .real _ => true
  | _ => false

/-- The only real call is the one that the application has made; the call returns what it
returned, and leaves its `errno` when it has failed. -/
def Transparent (c : AppCall) (es : List Event) (x : Except Fault Int) (s' : Manager) : Prop :=
  ∃ r : Except Errno Int, es.filter (fun e => e.1.isReal) = [⟨.real c, r⟩] ∧
    x = .ok (value r) ∧ ∀ e, r = .error e → s'.errno = e.code

/-- Every path that was found in a source directory is resolved again, to one that is in a
source directory. -/
def Resolved (session : Option DirectorySet) (es : List Event) : Prop :=
  ∀ path (r : Except Errno Path), (⟨.realpath .translatePrefix path, r⟩ : Event) ∈ es →
    ∃ D q, session = some D ∧ r = .ok q ∧ D.isPrefixOfRealpath q = true

/-- The reference to the file can be given back. -/
def Releasable (f : TrackedFile) : Prop :=
  0 < f.referenceCount ∧ (f.referenceCount = 1 → f.fullPath ≠ none)

/-- The file can have a destination. -/
def Creatable (f : TrackedFile) : Prop := f.unlinked = true → f.destinationFile ≠ none

/-- When the new name is resolved, the file found in the table, if any, can have a destination;
when that fails, there is such a file, with another reference. -/
def SafeTarget (s : Manager) (found : Option Ptr) : Except Errno Path → Prop
  | .ok _ => ∀ p, found = some p → Creatable (s.source p)
  | .error _ => ∃ p, found = some p ∧ 0 < (s.source p).referenceCount

/-- The target of a rename is safe. -/
def RenameSafe (s : Manager) (es : List Event) : Prop :=
  ∀ path q (found : Option Ptr) (r : Except Errno Path), (⟨.tableGet path, found⟩ : Event) ∈ es →
    (⟨.realpath .sourceFileRename q, r⟩ : Event) ∈ es → SafeTarget s found r

/-- The unlinked file can have a destination, when the unlink is captured. -/
def UnlinkSafe (s : Manager) (full_path : Path) (file : Ptr) : Prop :=
  ∀ D, s.session = some D → s.captureEnabled = true → D.isPrefixOfRealpath full_path = true →
    D.fileIsExcluded full_path = false → Creatable (s.source file)

/-- What has to be the case for the call to be transparent, in the state before it and in the
answers. -/
def Benign (s : Manager) (es : List Event) : AppCall → Prop
  | .openFile _ _ creat mode => (creat = false → mode = none) ∧ Resolved s.session es
  | .mkdir _ _ => Resolved s.session es
  | .close fd => s.isDead = false → ∀ d, s.map fd = some d → Releasable (s.source d.source)
  | .write fd buf =>
    ∀ e c e', (⟨.real (.write fd buf), (.error e : Except Errno Int)⟩ : Event) ∈ es →
      (⟨.backup c, (.error e' : Except Errno Nat)⟩ : Event) ∈ es → e'.code = e.code
  | .pwrite fd buf offset =>
    s.isDead = false → s.map fd = none → ∀ v,
      (⟨.real (.pwrite fd buf offset), (.ok v : Except Errno Int)⟩ : Event) ∈ es → v < 2 ^ 31
  | .truncate path _ =>
    s.isDead = false → ∀ D full, s.session = some D →
      (⟨.realpath .truncate path, (.ok full : Except Errno Path)⟩ : Event) ∈ es →
      D.isPrefixOfRealpath full = true →
        full = path ∧ ∃ b p, (⟨.tableGet b, some p⟩ : Event) ∈ es
  | .rename _ _ => RenameSafe s es
  | .unlink _ =>
    ∀ full p, (⟨.tableGet full, some p⟩ : Event) ∈ es → UnlinkSafe s full p
  | _ => True

/-! ## Rules -/

/-- The condition does not depend on light operations. -/
def Indifferent (B : List Event → Prop) : Prop :=
  ∀ pre mid post, (∀ e ∈ mid, e.1.light = true) → (B (pre ++ (mid ++ post)) ↔ B (pre ++ post))

theorem mem_light {pre mid post : List Event} (h : ∀ e ∈ mid, e.1.light = true) {e : Event}
    (he : e.1.light = false) : e ∈ pre ++ (mid ++ post) ↔ e ∈ pre ++ post := by
  have hmid : e ∉ mid := by
    intro hmem
    rw [h e hmem] at he
    cases he
  simp only [List.mem_append, hmid, false_or]

theorem Indifferent.cons {B : List Event → Prop} (h : Indifferent B) (e : Event) :
    Indifferent fun es => B (e :: es) :=
  fun pre mid post hmid => h (e :: pre) mid post hmid

theorem indifferent_resolved (session : Option DirectorySet) : Indifferent (Resolved session) := by
  intro pre mid post hmid
  unfold Resolved
  refine forall_congr' fun path => forall_congr' fun r => ?_
  rw [mem_light hmid rfl]

theorem indifferent_renameSafe (s : Manager) : Indifferent (RenameSafe s) := by
  intro pre mid post hmid
  unfold RenameSafe
  refine forall_congr' fun path => forall_congr' fun q => forall_congr' fun found =>
    forall_congr' fun r => ?_
  rw [mem_light hmid rfl, mem_light hmid rfl]

/-- The program performs no real call, and comes to its end exactly when `B` says. -/
def Sound {α : Type} (B : List Event → Prop) (p : CallM α) (s : Manager) : Prop :=
  All managerHandler p s fun es x _ => (∀ e ∈ es, e.1.isReal = false) ∧ ((∃ a, x = .ok a) ↔ B es)

section

variable {α β : Type} {B : List Event → Prop} {s : Manager}

theorem light_not_real {o : Op} (h : o.light = true) : o.isReal = false := by
  cases o with
  | real c => cases h
  | _ => rfl

theorem sound_pure {a : α} (hB : B []) : Sound B (pure a : CallM α) s :=
  ⟨by simp, iff_of_true ⟨a, rfl⟩ hB⟩

theorem sound_fail {e : Fault} (hB : ¬ B []) : Sound B (fail e : CallM α) s := by
  refine ⟨by simp, iff_of_false ?_ hB⟩
  intro h
  obtain ⟨a, ha⟩ := h
  cases ha

theorem sound_reply {o : Op} {f : o.Answer → CallM β} {r : o.Answer} (hr : Op.reply o s = some r)
    (hf : Sound B (f r) (Op.next o s r)) : Sound B (call o >>= f) s :=
  all_reply (H := managerHandler) hr hf

theorem sound_answer {o : Op} {f : o.Answer → CallM β} (hr : Op.reply o s = none)
    (ho : o.isReal = false)
    (hf : ∀ r, Op.allows o s r = true → Sound (fun es => B (⟨o, r⟩ :: es)) (f r) (Op.next o s r)) :
    Sound B (call o >>= f) s := by
  refine all_answer (H := managerHandler) hr fun r hallows => ?_
  refine (hf r hallows).mono fun es x s' ⟨hes, hx⟩ => ⟨?_, hx⟩
  rw [List.forall_mem_cons]
  exact ⟨ho, hes⟩

/-- A part that always comes to its end, with what is known then. -/
theorem sound_bind {p : CallM α} {f : α → CallM β} {R : List Event → α → Manager → Prop}
    (hp : All managerHandler p s fun es x s' =>
      (∀ e ∈ es, e.1.isReal = false) ∧ ∃ a, x = .ok a ∧ R es a s')
    (hf : ∀ es a s', R es a s' → Sound (fun es' => B (es ++ es')) (f a) s') :
    Sound B (p >>= f) s := by
  refine All.bind hp (fun es e s' h => ?_) fun es a s' h => ?_
  · obtain ⟨-, a, ha, -⟩ := h
    cases ha
  · obtain ⟨hes, a', ha, hR⟩ := h
    cases ha
    refine (hf es a s' hR).mono fun es' y s'' ⟨hes', hy⟩ => ⟨?_, hy⟩
    rw [List.forall_mem_append]
    exact ⟨hes, hes'⟩

theorem Light.spec {p : CallM α} (hp : Light p) : All managerHandler p s fun es x s' =>
    (∀ e ∈ es, e.1.isReal = false) ∧
      ∃ a, x = .ok a ∧ (Alike s s' ∧ ∀ e ∈ es, e.1.light = true) := by
  refine (hp.all s).mono fun es x s' ⟨halike, hes, a, ha⟩ => ?_
  exact ⟨fun e he => light_not_real (hes e he), a, ha, halike, hes⟩

theorem sound_light_bind {p : CallM α} {f : α → CallM β} (hp : Light p) (hB : Indifferent B)
    (hf : ∀ a s', Alike s s' → Sound B (f a) s') : Sound B (p >>= f) s := by
  refine sound_bind hp.spec fun es a s' ⟨halike, hes⟩ => ?_
  refine (hf a s' halike).mono fun es' x s'' ⟨hreal, hx⟩ => ⟨hreal, hx.trans ?_⟩
  exact (hB [] es es' hes).symm

theorem sound_light {p : CallM α} (hp : Light p) (hB : Indifferent B) (hnil : B []) :
    Sound B p s := by
  refine hp.spec.mono fun es x s' ⟨hreal, a, ha, _, hes⟩ => ⟨hreal, iff_of_true ⟨a, ha⟩ ?_⟩
  have h := hB [] es [] hes
  rw [List.append_nil] at h
  exact h.mpr hnil

theorem sound_then_light {p : CallM α} {f : α → CallM β} (hp : Sound B p s)
    (hB : Indifferent B) (hf : ∀ a, Light (f a)) : Sound B (p >>= f) s := by
  refine All.bind hp (fun es e s' ⟨hreal, hx⟩ => ⟨hreal, ?_⟩) fun es a s' ⟨hreal, hx⟩ => ?_
  · refine iff_of_false ?_ fun h => ?_
    · intro h
      obtain ⟨b, hb⟩ := h
      cases hb
    · obtain ⟨b, hb⟩ := hx.mpr h
      cases hb
  · refine (hf a).spec.mono fun es' x s'' ⟨hreal', b, hb, _, hes'⟩ => ⟨?_, ?_⟩
    · rw [List.forall_mem_append]
      exact ⟨hreal, hreal'⟩
    · have h := hB es es' [] hes'
      rw [List.append_nil, List.append_nil] at h
      exact iff_of_true ⟨b, hb⟩ (h.mpr (hx.mp ⟨a, rfl⟩))

end

/-! ## Paths that are resolved twice -/

/-- Neither a real call nor the second resolution of a path. -/
def Op.aside : Op → Bool
  | .real _ => false
  | .realpath .translatePrefix _ => false
  | _ => true

theorem aside_not_real {o : Op} (h : o.aside = true) : o.isReal = false := by
  cases o with
  | real c => cases h
  | _ => rfl

theorem resolved_append {session : Option DirectorySet} {es es' : List Event}
    (h : ∀ e ∈ es, e.1.aside = true) : Resolved session (es ++ es') ↔ Resolved session es' := by
  unfold Resolved
  refine forall_congr' fun path => forall_congr' fun r => ?_
  rw [List.mem_append, or_iff_right]
  intro hmem
  have := h _ hmem
  cases this

theorem resolved_nil (session : Option DirectorySet) : Resolved session [] := by
  intro path r h
  cases h

section

variable {s : Manager} {D : DirectorySet}

theorem sound_translatePrefix (file : Path) :
    Sound (Resolved (some D)) (translatePrefix D file) s := by
  unfold translatePrefix
  refine sound_answer rfl rfl fun (r : Except Errno Path) _ => ?_
  cases r with
  | error e =>
    refine sound_fail fun h => ?_
    obtain ⟨D', q, -, hq, -⟩ := h file (.error e) (List.mem_singleton.mpr rfl)
    cases hq
  | ok absfile =>
    dsimp only [translatePrefixOfRealpath]
    split
    · rename_i path hpath
      refine sound_pure fun path' r' hmem => ?_
      cases List.mem_singleton.mp hmem
      exact ⟨D, absfile, rfl, rfl, D.prefix_of_translate hpath⟩
    · rename_i hnone
      refine sound_fail fun h => ?_
      obtain ⟨D', q, hD', hq, hinside⟩ := h file (.ok absfile) (List.mem_singleton.mpr rfl)
      cases hD'
      cases hq
      obtain ⟨path, hpath⟩ := D.translate_of_prefix hinside
      rw [hnone] at hpath
      cases hpath

theorem sound_captureOpen (file : Path) : Sound (Resolved (some D)) (captureOpen D file) s := by
  unfold captureOpen
  refine sound_light_bind (light_isPrefix D file) (indifferent_resolved _) fun b s' _ => ?_
  split
  · refine sound_then_light (sound_translatePrefix file) (indifferent_resolved _) fun path => ?_
    split
    · exact only_pure _
    · refine Only.bind (light_openPath _) fun r => ?_
      split
      · exact only_pure _
      · exact only_pure _
  · exact sound_pure (resolved_nil _)

theorem sound_captureMkdir (pathname : Path) :
    Sound (Resolved (some D)) (captureMkdir D pathname) s := by
  unfold captureMkdir
  refine sound_light_bind (light_isPrefix D pathname) (indifferent_resolved _) fun b s' _ => ?_
  split
  · exact sound_then_light (sound_translatePrefix pathname) (indifferent_resolved _) light_openPath
  · exact sound_pure (resolved_nil _)

theorem sound_managerMkdir (pathname : Path) :
    Sound (Resolved s.session) (managerMkdir pathname) s := by
  unfold managerMkdir
  refine sound_reply rfl (sound_reply (r := s.session) rfl ?_)
  cases hD : s.session with
  | none => exact sound_light (only_last rfl) (indifferent_resolved _) (resolved_nil _)
  | some D =>
    refine sound_then_light (sound_captureMkdir pathname) (indifferent_resolved _) fun r => ?_
    split
    · exact only_call rfl fun _ => only_last rfl
    · exact only_last rfl

/-- No operation of the application's threads opens or closes a session. -/
theorem next_session (o : Op) (s : Manager) (r : o.Answer) : (Op.next o s r).session =
    s.session := by
  have hafter : ∀ {α : Type} (r : Except Errno α), (s.after r).session = s.session := by
    intro α r
    cases r with
    | ok v => rfl
    | error e => rfl
  cases o with
  | real c => exact hafter r
  | realpath site path => exact hafter r
  | fstat fd => exact hafter r
  | backup c => exact hafter r
  | _ => rfl

theorem aside_all {α : Type} {p : CallM α} (hp : Only (fun o => o.aside = true) p) (s : Manager) :
    All managerHandler p s fun es x s' =>
      s'.session = s.session ∧ (∀ e ∈ es, e.1.aside = true) ∧ ∃ a, x = .ok a := by
  refine Only.all (R := fun s s' => s'.session = s.session) hp (fun _ => rfl) ?_ ?_ s
  · exact fun _ _ _ h h' => h'.trans h
  · exact fun o s r _ _ => next_session o s r

theorem only_getOrCreate (file_name : Path) :
    Only (fun o => o.aside = true) (getOrCreate file_name) := by
  unfold getOrCreate
  refine only_call rfl fun found => ?_
  split
  · exact only_call rfl fun _ => only_pure _
  · exact only_call rfl fun _ => only_call rfl fun _ => only_call rfl fun _ => only_pure _

/-- The description is there when `setup_description_and_source_file` succeeds. -/
theorem setup_spec (fd : Nat) (file : Path) (flags : Nat) :
    All managerHandler (setupDescriptionAndSourceFile fd file flags) s fun es x s' =>
      (∀ e ∈ es, e.1.aside = true) ∧
        ∃ a, x = .ok a ∧ s'.session = s.session ∧ (a = 0 → (s'.map fd).isSome) := by
  unfold setupDescriptionAndSourceFile
  refine all_answer rfl fun (r : Except Errno Path) _ => ?_
  have hs : (Op.next (.realpath .setupDescription file) s r).session = s.session :=
    next_session (Op.realpath .setupDescription file) s r
  cases r with
  | error e =>
    refine all_reply (r := ()) rfl ?_
    refine ⟨?_, e.code, rfl, hs, fun h => absurd h e.code_ne⟩
    intro e he
    cases List.mem_singleton.mp he
    rfl
  | ok full_source_file_path =>
    refine all_reply (r := ()) rfl ?_
    refine (aside_all (only_getOrCreate full_source_file_path) _).bind (fun es e s' h => ?_) ?_
    · obtain ⟨-, -, a, ha⟩ := h
      cases ha
    · intro es source s' ⟨hsession, hes, _⟩
      refine all_reply (r := ()) rfl (all_reply (r := ()) rfl (all_reply (r := ()) rfl ?_))
      refine ⟨?_, 0, rfl, hsession.trans hs, fun _ => ?_⟩
      · rw [List.append_nil, List.forall_mem_cons]
        exact ⟨rfl, hes⟩
      · change (Function.update s'.map fd _ fd).isSome = true
        rw [Function.update_self]
        rfl

theorem sound_openTracked (fd : Nat) (file : Path) (flags : Nat) :
    Sound (Resolved s.session) (openTracked fd file flags) s := by
  unfold openTracked
  refine sound_bind (R := fun es (a : Int) s' => (∀ e ∈ es, e.1.aside = true) ∧
    s'.session = s.session ∧ (a = 0 → (s'.map fd).isSome)) ?_ ?_
  · refine (setup_spec fd file flags).mono fun es x s' ⟨hes, a, ha, hs, hmap⟩ => ?_
    exact ⟨fun e he => aside_not_real (hes e he), a, ha, hes, hs, hmap⟩
  · intro es a s' ⟨hes, hs, hmap⟩
    have hB : (fun es' => Resolved s.session (es ++ es')) = Resolved s'.session := by
      funext es'
      rw [hs, resolved_append hes]
    rw [hB]
    split
    · exact sound_pure (resolved_nil _)
    · rename_i ha
      refine sound_reply rfl (sound_reply (r := s'.session) rfl ?_)
      cases hD : s'.session with
      | none => exact sound_light (only_last rfl) (indifferent_resolved _) (resolved_nil _)
      | some D =>
        refine sound_then_light ?_ (indifferent_resolved _) fun _ => only_last rfl
        obtain ⟨d, hd⟩ := Option.isSome_iff_exists.mp (hmap (not_not.mp ha))
        unfold openCapture
        refine sound_reply (reply_mapGet hd) ?_
        refine sound_reply rfl (sound_reply rfl ?_)
        refine sound_then_light (sound_captureOpen file) (indifferent_resolved _) fun a => ?_
        dsimp only
        split
        · exact only_call rfl fun _ => only_last rfl
        · split
          · exact only_call rfl fun _ => only_last rfl
          · refine Only.bind (light_tryToCreateDestinationFile _ _) fun r => ?_
            split
            · exact only_call rfl fun _ => only_call rfl fun _ => only_last rfl
            · exact only_call rfl fun _ => only_last rfl

theorem sound_managerOpen (fd : Nat) (file : Path) (flags : Nat) :
    Sound (Resolved s.session) (managerOpen fd file flags) s := by
  unfold managerOpen
  refine sound_answer rfl rfl fun (r : Except Errno FdKind) _ => ?_
  have hB : (fun es => Resolved s.session (⟨.fstat fd, r⟩ :: es)) =
      Resolved (Op.next (.fstat fd) s r).session := by
    have hs : (Op.next (.fstat fd) s r).session = s.session := next_session (Op.fstat fd) s r
    funext es
    have hes : ∀ e ∈ [(⟨.fstat fd, r⟩ : Event)], e.1.aside = true := by
      intro e he
      cases List.mem_singleton.mp he
      rfl
    rw [hs]
    exact propext (resolved_append hes)
  rw [hB]
  split
  · exact sound_reply rfl (sound_openTracked _ _ _)
  · exact sound_openTracked _ _ _
  · exact sound_pure (resolved_nil _)

end

end TokuBackup.Interpose
