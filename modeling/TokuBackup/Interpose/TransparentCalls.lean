import TokuBackup.Interpose.Transparent

/-!
# Transparent calls, one by one

What the manager does in each interposed call around the real call, and the main results: a
call is transparent exactly when it is benign, and a run of benign calls is a run without the
library.
-/

namespace TokuBackup.Interpose

open Kernel Table Lib Prog
open DoBackup (Errno)

section

variable {s : Manager} {B : List Event → Prop}

/-! ## Giving back a reference -/


theorem sound_tryToRemove {file : Ptr} (hB : Indifferent B)
    (hnil : B [] ↔ Releasable (s.source file)) : Sound B (tryToRemove file) s := by
  unfold tryToRemove removeReference
  rw [Prog.bind_assoc]
  refine sound_reply (r := (s.source file).referenceCount) rfl ?_
  split
  · rename_i hpos
    refine sound_reply (r := ()) rfl ?_
    change Sound B _ (released s file)
    obtain ⟨hcount, hpath⟩ := released_self s file
    refine sound_reply (r := (s.source file).referenceCount - 1) (congrArg some hcount) ?_
    split
    · rename_i hzero
      have hone : (s.source file).referenceCount = 1 := by
        change (s.source file).referenceCount - 1 = 0 at hzero
        change 0 < (s.source file).referenceCount at hpos
        omega
      refine sound_light_bind (light_tryToRemoveDestination file) hB fun _ s' halike => ?_
      have hname : (s'.source file).fullPath = (s.source file).fullPath :=
        (halike.source file).fullPath.trans hpath
      unfold tableRemove
      rw [Prog.bind_assoc]
      refine sound_reply (r := (s.source file).fullPath) (congrArg some hname) ?_
      split
      · rename_i hnone
        refine sound_fail fun h => ?_
        exact (hnil.mp h).2 hone hnone
      · rename_i n hsome
        refine sound_light (only_call rfl fun _ => only_last rfl) hB (hnil.mpr ⟨hpos, fun _ => ?_⟩)
        rw [hsome]
        exact Option.some_ne_none n
    · rename_i hne
      exact sound_pure (hnil.mpr ⟨hpos, fun hone => absurd (congrArg (· - 1) hone) hne⟩)
  · rename_i hzero
    exact sound_fail fun h => hzero (hnil.mp h).1

theorem sound_managerClose (fd : Nat) :
    Sound (fun _ => ∀ d, s.map fd = some d → Releasable (s.source d.source))
      (managerClose fd) s := by
  have hB : Indifferent fun _ => ∀ d, s.map fd = some d → Releasable (s.source d.source) :=
    fun _ _ _ _ => Iff.rfl
  unfold managerClose
  cases hmap : s.map fd with
  | none =>
    refine sound_reply (reply_mapGet_none hmap) (sound_pure fun d hd => ?_)
    cases hd
  | some d =>
    refine sound_reply (reply_mapGet hmap) ?_
    refine sound_light_bind ?_ (fun _ _ _ _ => Iff.rfl) fun _ s' halike => ?_
    · refine light_withSession fun _ => only_call rfl fun _ => ?_
      exact Only.bind (light_tryToRemoveDestination _) fun _ => only_last rfl
    · refine sound_reply (r := ()) rfl (sound_reply (r := ()) rfl ?_)
      refine sound_then_light (sound_tryToRemove (fun _ _ _ _ => Iff.rfl) ?_)
        (fun _ _ _ _ => Iff.rfl) fun _ => only_last rfl
      have hsame := halike.source d.source
      change _ ↔ Releasable (s'.source d.source)
      unfold Releasable
      rw [hsame.referenceCount, hsame.fullPath]
      constructor
      · exact fun h => h d rfl
      · intro h d' hd'
        cases hd'
        exact h

/-! ## Finding a source file -/

/-- A new source file. -/
def created (s : Manager) (file : Ptr) (path : Path) : Manager :=
  s.modify file fun _ => ⟨⟨some path, 0, false, none⟩, []⟩

/-- A file that the table finds, or a new one. -/
theorem sound_getOrCreate {file_name : Path} {α : Type} {f : Ptr → CallM α}
    (hfound : ∀ p, (s.source p).fullPath = some file_name →
      Sound (fun es => B (⟨.tableGet file_name, some p⟩ :: es)) (f p) (referenced s p))
    (hnew : ∀ p : Ptr,
      Sound (fun es => B (⟨.tableGet file_name, none⟩ :: ⟨.newFile file_name, p⟩ :: es))
      (f p) (referenced (created s p file_name) p)) :
    Sound B (getOrCreate file_name >>= f) s := by
  unfold getOrCreate
  rw [Prog.bind_assoc]
  refine sound_answer rfl rfl fun (r : Option Ptr) hallows => ?_
  cases r with
  | some p => exact sound_reply (r := ()) rfl (hfound p (of_decide_eq_true hallows))
  | none =>
    refine sound_answer rfl rfl fun (p : Ptr) _ => ?_
    exact sound_reply (r := ()) rfl (sound_reply (r := ()) rfl (hnew p))

/-- What `try_to_create_destination_file` comes to: when it fails, the file can have a
destination; otherwise it has one if it can. -/
def CreationDone (s : Manager) (file : Ptr) (a : Int) (s' : Manager) : Prop :=
  (a ≠ 0 → Creatable (s.source file)) ∧
    (a = 0 → ((s'.source file).destinationFile ≠ none ↔ Creatable (s.source file)))

theorem creation_spec (file : Ptr) (full_path : Path) :
    All managerHandler (tryToCreateDestinationFile file full_path) s fun _ x s' =>
      ∀ a, x = .ok a → CreationDone s file a s' := by
  unfold tryToCreateDestinationFile
  refine all_reply (r := (s.source file).unlinked) rfl ?_
  change All _ _ s _
  cases hunlinked : (s.source file).unlinked with
  | true =>
    intro a ha
    cases ha
    refine ⟨fun h => absurd rfl h, fun _ => ?_⟩
    unfold Creatable
    simp only [hunlinked, true_implies]
  | false =>
    have hcreatable : Creatable (s.source file) := by
      intro h
      rw [hunlinked] at h
      cases h
    refine all_reply (r := (s.source file).destinationFile) rfl ?_
    change All _ _ s _
    cases hdest : (s.source file).destinationFile with
    | some d =>
      intro a _
      rw [CreationDone, hdest]
      exact ⟨fun _ => hcreatable, fun _ => iff_of_true (Option.some_ne_none d) hcreatable⟩
    | none =>
      refine all_answer rfl fun (r : Except Errno Nat) _ => ?_
      cases r with
      | error e =>
        intro a ha
        cases ha
        exact ⟨fun _ => hcreatable, fun h => absurd h e.code_ne⟩
      | ok fd =>
        refine all_reply (r := ()) rfl fun a _ => ⟨fun _ => hcreatable, fun _ => ?_⟩
        refine iff_of_true ?_ hcreatable
        change ((s.modify file fun f => { f with destinationFile := some ⟨fd, full_path⟩ }).source
          file).destinationFile ≠ none
        rw [Manager.source_modify_self]
        exact Option.some_ne_none _

theorem sound_creation {file : Ptr} {full_path : Path} {α : Type} {f : Int → CallM α}
    (hB : Indifferent B)
    (hfailed : ∀ a s', a ≠ 0 → Creatable (s.source file) → Sound B (f a) s')
    (hdone : ∀ s', Alike s s' →
      ((s'.source file).destinationFile ≠ none ↔ Creatable (s.source file)) → Sound B (f 0) s') :
    Sound B (tryToCreateDestinationFile file full_path >>= f) s := by
  refine sound_bind (R := fun es (a : Int) s' =>
    (Alike s s' ∧ ∀ e ∈ es, e.1.light = true) ∧ CreationDone s file a s') ?_ ?_
  · refine ((light_tryToCreateDestinationFile file full_path).spec.and
      (creation_spec file full_path)).mono fun es x s' ⟨⟨hreal, a, ha, hlight⟩, hdest⟩ => ?_
    exact ⟨hreal, a, ha, hlight, hdest a ha⟩
  · intro es a s' ⟨⟨halike, hes⟩, hfail, hdest⟩
    have hB' : (fun es' => B (es ++ es')) = B := funext fun es' => propext (hB [] es es' hes)
    rw [hB']
    by_cases ha : a = 0
    · subst ha
      exact hdone s' halike (hdest rfl)
    · exact hfailed a s' ha (hfail ha)

/-! ## Renaming -/

/-- The file with the name that `source_file::rename` gives it. -/
def renamed (s : Manager) (file : Ptr) (n : Option Path) : Manager :=
  s.modify file fun f => { f with fullPath := n }

theorem renamed_self (s : Manager) (file : Ptr) (n : Option Path) :
    (renamed s file n).source file = { s.source file with fullPath := n } :=
  Manager.source_modify_self _ _ _

/-- The end of `rename_locked`, with the target in the table. -/
theorem sound_renameTarget {target : Ptr} {new_path dest_path : Path} (hB : Indifferent B)
    (hname : (s.source target).fullPath ≠ none) (hcount : 0 < (s.source target).referenceCount)
    (hok : ∀ q full, B [⟨.realpath .sourceFileRename q, (.ok full : Except Errno Path)⟩] ↔
      (s.source target).destinationFile ≠ none)
    (herror : ∀ q e, B [⟨.realpath .sourceFileRename q, (.error e : Except Errno Path)⟩] ↔
      1 < (s.source target).referenceCount) :
    Sound B (tableRename target new_path dest_path >>= fun r =>
      tryToRemove target >>= fun _ => unlock .table >>= fun _ => pure r) s := by
  -- the end, once the name is set to `n`
  have hend : ∀ {B' : List Event → Prop} {s' : Manager} (r : Int), Indifferent B' →
      (B' [] ↔ Releasable (s'.source target)) →
      Sound B' (tryToRemove target >>= fun _ => unlock .table >>= fun _ => pure r) s' :=
    fun r hB' hnil => sound_then_light (sound_tryToRemove hB' hnil) hB' fun _ =>
      only_call rfl fun _ => only_pure _
  obtain ⟨n, hn⟩ := Option.ne_none_iff_exists'.mp hname
  unfold tableRename tableRemove
  simp only [Prog.bind_assoc]
  refine sound_reply (r := ()) rfl (sound_reply (r := some n) (congrArg some hn) ?_)
  refine sound_reply (r := ()) rfl ?_
  unfold sourceFileRename
  rw [Prog.bind_assoc]
  refine sound_answer rfl rfl fun (r : Except Errno Path) _ => ?_
  cases r with
  | error e =>
    refine sound_reply (r := ()) rfl ?_
    dsimp only
    rw [if_pos e.code_ne]
    refine sound_reply (r := ()) rfl (sound_reply (r := ()) rfl ?_)
    refine hend e.code (hB.cons _) ((herror new_path e).trans ?_)
    change _ ↔ Releasable ((renamed s target none).source target)
    rw [renamed_self]
    unfold Releasable
    constructor
    · exact fun h => ⟨hcount, fun hone => absurd hone (Nat.ne_of_gt h)⟩
    · intro h
      have hne : (s.source target).referenceCount ≠ 1 := fun hone => h.2 hone rfl
      omega
  | ok full =>
    refine sound_reply (r := ()) rfl ?_
    dsimp only
    rw [if_neg (not_not.mpr rfl), Prog.bind_assoc]
    change Sound _ _ (renamed s target (some full))
    have hdest : ((renamed s target (some full)).source target).destinationFile =
        (s.source target).destinationFile := by
      rw [renamed_self]
    refine sound_reply (r := (s.source target).destinationFile) (congrArg some hdest) ?_
    change Sound _ _ (renamed s target (some full))
    cases hd : (s.source target).destinationFile with
    | none =>
      refine sound_fail fun h => ?_
      exact (hok new_path full).mp h hd
    | some d =>
      have hreleasable : ∀ {s'}, Alike (renamed s target (some full)) s' →
          Releasable (s'.source target) := by
        intro s' halike
        have hsame := halike.source target
        unfold Releasable
        rw [hsame.referenceCount, hsame.fullPath, renamed_self]
        exact ⟨hcount, fun _ => Option.some_ne_none _⟩
      have hnil : B [⟨.realpath .sourceFileRename new_path, (.ok full : Except Errno Path)⟩] := by
        rw [hok, hd]
        exact Option.some_ne_none d
      dsimp only
      rw [Prog.bind_assoc]
      refine sound_light_bind (light_destinationRename _ _ _) (hB.cons _) fun r s' halike => ?_
      split
      · refine sound_reply (r := ()) rfl (sound_reply (r := ()) rfl ?_)
        have halike' := halike.trans (alike_backupError s' r "Could not do dest_file->rename to %s")
        exact hend r (hB.cons _) (iff_of_true hnil (hreleasable halike'))
      · refine sound_reply (r := ()) rfl (sound_reply (r := ()) rfl ?_)
        exact hend 0 (hB.cons _) (iff_of_true hnil (hreleasable halike))

/-- The operations that `RenameSafe` looks at. -/
def Op.ofRename : Op → Bool
  | .tableGet _ => true
  | .realpath .sourceFileRename _ => true
  | _ => false

theorem renameSafe_found {path q : Path} {found : Option Ptr} {r : Except Errno Path}
    {mid : List Event} (hmid : ∀ e ∈ mid, e.1.ofRename = false) :
    RenameSafe s (⟨.tableGet path, found⟩ :: (mid ++ [⟨.realpath .sourceFileRename q, r⟩])) ↔
      SafeTarget s found r := by
  have hnot : ∀ e : Event, e.1.ofRename = true → e ∉ mid := by
    intro e he hmem
    rw [hmid e hmem] at he
    cases he
  constructor
  · intro h
    exact h path q found r (by simp) (by simp)
  · intro h path' q' found' r' hget hreal
    rw [List.mem_cons, List.mem_append, List.mem_singleton] at hget hreal
    rcases hget with hget | hget | hget
    · rcases hreal with hreal | hreal | hreal
      · cases hreal
      · exact absurd hreal (hnot _ rfl)
      · cases hget
        cases hreal
        exact h
    · exact absurd hget (hnot _ rfl)
    · cases hget

/-- Before the new name is resolved there is no condition. -/
theorem renameSafe_of_none {es : List Event}
    (h : ∀ q r, (⟨.realpath .sourceFileRename q, r⟩ : Event) ∉ es) : RenameSafe s es :=
  fun _ q _ r _ hreal => absurd hreal (h q r)

theorem created_self (s : Manager) (file : Ptr) (path : Path) :
    (created s file path).source file = ⟨⟨some path, 0, false, none⟩, []⟩ :=
  Manager.source_modify_self _ _ _

theorem sound_renameLocked (old_path new_path old_dest dest_path : Path) :
    Sound (RenameSafe s) (renameLocked old_path new_path old_dest dest_path) s := by
  -- what follows once the target `p` is in the table
  have hrest : ∀ (found : Option Ptr) (mid : List Event) (p : Ptr) (s' : Manager),
      (∀ e ∈ mid, e.1.ofRename = false) → (s'.source p).fullPath = some old_path →
      0 < (s'.source p).referenceCount →
      (∀ full, SafeTarget s found (.ok full) ↔ Creatable (s'.source p)) →
      (∀ e, SafeTarget s found (.error e) ↔ 1 < (s'.source p).referenceCount) →
      Sound (fun es => RenameSafe s (⟨.tableGet old_path, found⟩ :: (mid ++ es)))
        (tryToCreateDestinationFile p old_dest >>= fun r =>
          if r ≠ 0 then unlock .table >>= fun _ => pure r
          else tableRename p new_path dest_path >>= fun r =>
            tryToRemove p >>= fun _ => unlock .table >>= fun _ => pure r) s' := by
    intro found mid p s' hmid hname hcount hok herror
    have hB : Indifferent fun es => RenameSafe s (⟨.tableGet old_path, found⟩ :: (mid ++ es)) := by
      intro pre es post hes
      have h := indifferent_renameSafe s (⟨.tableGet old_path, found⟩ :: (mid ++ pre)) es post hes
      rwa [List.cons_append, List.cons_append, List.append_assoc, List.append_assoc] at h
    refine sound_creation hB (fun a s'' ha _ => ?_) fun s'' halike hdest => ?_
    · rw [if_pos ha]
      refine sound_light (only_call rfl fun _ => only_pure _) hB (renameSafe_of_none ?_)
      intro q r hmem
      rw [List.append_nil, List.mem_cons] at hmem
      rcases hmem with hmem | hmem
      · cases hmem
      · have := hmid _ hmem
        cases this
    · rw [if_neg (not_not.mpr rfl)]
      have hsame := halike.source p
      refine sound_renameTarget hB ?_ (hsame.referenceCount ▸ hcount)
        (fun q full => ?_) fun q e => ?_
      · rw [hsame.fullPath, hname]
        exact Option.some_ne_none _
      · exact (renameSafe_found hmid).trans ((hok full).trans hdest.symm)
      · rw [hsame.referenceCount]
        exact (renameSafe_found hmid).trans (herror e)
  unfold renameLocked
  refine sound_reply (r := ()) rfl (sound_getOrCreate (fun p hp => ?_) fun p => ?_)
  · refine hrest (some p) [] p (referenced s p) (by simp) ?_ ?_ (fun full => ?_) fun e => ?_
    · rw [referenced_self]
      exact hp
    · rw [referenced_self]
      exact Nat.succ_pos _
    · rw [referenced_self]
      constructor
      · exact fun h => h p rfl
      · intro h p' hp'
        cases hp'
        exact h
    · rw [referenced_self]
      constructor
      · intro h
        obtain ⟨p', hp', hpos⟩ := h
        cases hp'
        exact Nat.succ_lt_succ hpos
      · exact fun h => ⟨p, rfl, Nat.lt_of_succ_lt_succ h⟩
  · refine hrest none [⟨.newFile old_path, p⟩] p _ (by simp [Op.ofRename]) ?_ ?_
      (fun full => ?_) fun e => ?_
    · rw [referenced_self, created_self]
    · rw [referenced_self, created_self]
      exact Nat.succ_pos _
    · rw [referenced_self, created_self]
      refine iff_of_true (fun p' hp' => ?_) fun h => ?_
      · cases hp'
      · cases h
    · rw [referenced_self, created_self]
      refine iff_of_false (fun h => ?_) (Nat.lt_irrefl 1)
      obtain ⟨p', hp', -⟩ := h
      cases hp'

theorem renameSafe_cons {e : Event} {es : List Event} (he : e.1.ofRename = false) :
    RenameSafe s (e :: es) ↔ RenameSafe s es := by
  have hnot : ∀ e' : Event, e'.1.ofRename = true → e' ≠ e := by
    intro e' he' heq
    rw [heq, he] at he'
    cases he'
  unfold RenameSafe
  refine forall_congr' fun path => forall_congr' fun q => forall_congr' fun found =>
    forall_congr' fun r => ?_
  rw [List.mem_cons, List.mem_cons, or_iff_right (hnot _ rfl), or_iff_right (hnot _ rfl)]

theorem sound_captureRename (full_old_path newpath : Path) (D : DirectorySet) :
    Sound (RenameSafe s) (captureRename full_old_path newpath D) s := by
  have hB := indifferent_renameSafe s
  unfold captureRename
  refine sound_answer rfl rfl fun (r : Except Errno Path) _ => ?_
  cases r with
  | error e =>
    exact sound_light (light_reportNoMemory _ _) (hB.cons _)
      ((renameSafe_cons rfl).mpr (renameSafe_of_none (by simp)))
  | ok full_new_path =>
    have hcons :
      (fun es => RenameSafe s (⟨.realpath .captureRename newpath, .ok full_new_path⟩ :: es)) =
        RenameSafe s :=
      funext fun es => propext (renameSafe_cons rfl)
    rw [hcons]
    dsimp only
    split
    · rename_i hinside
      obtain ⟨old_dest, hold⟩ := translate_eq hinside.1
      obtain ⟨new_dest, hnew⟩ := translate_eq hinside.2
      rw [hold, hnew, pure_eq, done_bind, pure_eq, done_bind]
      change Sound _ _ s
      refine sound_then_light (sound_renameLocked _ _ _ _) hB fun r => ?_
      split
      · exact only_pure _
      · exact only_last rfl
    · exact sound_pure (renameSafe_of_none (by simp))

/-! ## Unlinking -/

theorem sound_finishUnlink {file : Ptr} (hB : Indifferent B) (hnil : B [])
    (hname : (s.source file).fullPath ≠ none) (hcount : 0 < (s.source file).referenceCount) :
    Sound B (finishUnlink file) s := by
  have hfile : ((s.modify file fun f => { f with unlinked := true }).source file) =
      { s.source file with unlinked := true } := Manager.source_modify_self _ _ _
  unfold finishUnlink
  refine sound_reply (r := ()) rfl (sound_reply (r := ()) rfl ?_)
  change Sound B _ (s.modify file fun f => { f with unlinked := true })
  refine sound_light_bind (light_tryToRemoveDestination file) hB fun _ s' halike => ?_
  refine sound_reply (r := ()) rfl (sound_tryToRemove hB (iff_of_true hnil ?_))
  have hsame := halike.source file
  change Releasable (s'.source file)
  unfold Releasable
  rw [hsame.referenceCount, hsame.fullPath, hfile]
  exact ⟨hcount, fun _ => hname⟩

theorem sound_unlinkSection {full_path : Path} {file : Ptr} (hB : Indifferent B)
    (hnil : B [] ↔ UnlinkSafe s full_path file) (hname : (s.source file).fullPath ≠ none)
    (hcount : 0 < (s.source file).referenceCount) : Sound B (unlinkSection full_path file) s := by
  have hfinish : UnlinkSafe s full_path file → Sound B (finishUnlink file) s :=
    fun h => sound_finishUnlink hB (hnil.mpr h) hname hcount
  unfold unlinkSection shouldCaptureUnlinkOfFile
  rw [Prog.bind_assoc]
  refine sound_reply (r := s.session) rfl ?_
  change Sound B _ s
  cases hsession : s.session with
  | none =>
    refine hfinish fun D hD => ?_
    rw [hsession] at hD
    cases hD
  | some D =>
    dsimp only
    rw [Prog.bind_assoc]
    refine sound_reply (r := s.captureEnabled) rfl ?_
    change Sound B _ s
    cases henabled : s.captureEnabled with
    | false =>
      refine hfinish fun D' _ h => ?_
      rw [henabled] at h
      cases h
    | true =>
      rw [if_pos rfl]
      by_cases hcaptured : D.isPrefixOfRealpath full_path = true ∧
        ¬ D.fileIsExcluded full_path = true
      · rw [if_pos hcaptured]
        have hsafe : UnlinkSafe s full_path file ↔ Creatable (s.source file) := by
          constructor
          · exact fun h => h D hsession henabled hcaptured.1 (Bool.not_eq_true _ ▸ hcaptured.2)
          · exact fun h _ _ _ _ _ => h
        -- the destination is unlinked, and the rest follows
        have hunlinked : ∀ {s'} (dest : DestinationFile), Alike s s' → B [] →
            Sound B (captureUnlink.unlinkDestination dest >>= fun b =>
              if b = true then finishUnlink file else pure ()) s' := by
          intro s' dest halike hnil
          refine sound_light_bind (light_unlinkDestination dest) hB fun b s'' halike' => ?_
          have hsame := (halike.trans halike').source file
          split
          · refine sound_finishUnlink hB hnil ?_ ?_
            · rwa [hsame.fullPath]
            · rwa [hsame.referenceCount]
          · exact sound_pure hnil
        rw [pure_eq, done_bind]
        dsimp only
        unfold captureUnlink
        rw [Prog.bind_assoc]
        refine sound_reply (r := (s.source file).destinationFile) rfl ?_
        change Sound B _ s
        cases hdest : (s.source file).destinationFile with
        | some dest =>
          refine hunlinked dest (Alike.refl s) (hnil.mpr (hsafe.mpr fun _ => ?_))
          rw [hdest]
          exact Option.some_ne_none _
        | none =>
          obtain ⟨dest_path, hpath⟩ := translate_eq hcaptured.1
          dsimp only
          rw [hpath, pure_eq, done_bind, Prog.bind_assoc]
          refine sound_creation hB (fun a s' ha hcreatable => ?_) fun s' halike hcreated => ?_
          · rw [if_pos ha]
            exact sound_pure (hnil.mpr (hsafe.mpr hcreatable))
          · rw [if_neg (not_not.mpr rfl), Prog.bind_assoc]
            refine sound_reply (r := (s'.source file).destinationFile) rfl ?_
            change Sound B _ s'
            cases hdest' : (s'.source file).destinationFile with
            | none =>
              refine sound_fail fun h => ?_
              exact hcreated.mpr (hsafe.mp (hnil.mp h)) hdest'
            | some dest =>
              refine hunlinked dest halike (hnil.mpr (hsafe.mpr (hcreated.mp ?_)))
              rw [hdest']
              exact Option.some_ne_none _
      · rw [if_neg hcaptured]
        refine hfinish fun D' hD _ hinside hexcluded => ?_
        rw [hsession] at hD
        cases hD
        refine absurd ⟨hinside, ?_⟩ hcaptured
        rw [hexcluded]
        exact Bool.false_ne_true

end

end TokuBackup.Interpose
