import TokuBackup.Lifecycle.Exclusion
import TokuBackup.Lifecycle.Prepared

/-!
# Unlinked files

The real `unlink` is outside every lock. Its section comes later, and before it the start of
a session may prepare an fd that is still open on the file, and the copier may have created
the destination. The section removes the file in the backup, which it first creates when the
source file has no destination, and marks the source file, so that nobody creates it again;
and the copier creates a destination only for a path that it still finds in the source.

The machine below adds the files in the destinations of the session. Nothing is renamed in
it, and what the copier visits `copy_full_path` has let pass.
-/

namespace TokuBackup.Lifecycle.Unlinked

open Kernel Table Lib
open Prepared (Gone gone_initial gone_step source_back)
open Exclusion (Decision decisions fileDecisions CopierIncluded)

/-! ## The machine -/

structure State where
  base : Lifecycle.State
  /-- The files in the destinations of the session, which are empty at its start. -/
  present : Path → Bool
  /-- An unlink of the path is finished, and no file has been made there since. -/
  gone : Path → Bool

/-- Whether the file `n` is there after the `open` with `O_CREAT` in
`try_to_create_destination_file`. -/
def create (F : Files) (source : Ptr) (full_path : Path) (created : Bool) (present : Path → Bool)
    (n : Path) : Bool :=
  match F.heap source with
  | some f =>
    if created ∧ f.unlinked = false ∧ f.destinationFile = none ∧ n = full_path then true
    else present n
  | none => present n

/-- Whether the file `n` is in the destinations after the step. -/
def State.presentAfter (s : State) (a : Action) (n : Path) : Bool :=
  match a with
  | .openCapture fd opened created =>
    match s.base.session, s.base.fds fd with
    | some D, some d =>
      match d.stage, D.translatePrefixOfRealpath d.path with
      | .published source, some backup_file_name =>
        if s.base.names d.path ≠ none ∧ D.fileIsExcluded backup_file_name = false ∧ opened then
          create s.base.files source backup_file_name created s.present n
        else s.present n
      | _, _ => s.present n
    | _, _ => s.present n
  | .prepareNext opened created =>
    match s.base.session, s.base.backup with
    | some D, .preparing i =>
      match s.base.mapped i with
      | some source =>
        match (s.base.files.name source).bind D.translatePrefixOfRealpath with
        | some file_name =>
          if i < s.base.mapSize ∧ D.fileIsExcluded file_name = false ∧ opened then
            create s.base.files source file_name created s.present n
          else s.present n
        | none => s.present n
      | none => s.present n
    | _, _ => s.present n
  | .copierCreate created =>
    match s.base.backup with
    | .copying c =>
      if s.base.names c.src ≠ none then create s.base.files c.file c.dst created s.present n
      else s.present n
    | _ => s.present n
  | .unlinkFinish created unlinked =>
    match s.base.fileOp with
    | .unlinkHeld path source =>
      match s.base.shouldCaptureUnlink path with
      | some D =>
        match s.base.files.dest source, D.translatePrefixOfRealpath path with
        | some dest, _ => if unlinked ∧ n = dest.path then false else s.present n
        | none, some dest_path =>
          -- it is created only to be unlinked
          if created ∧ n = dest_path then !unlinked else s.present n
        | none, none => s.present n
      | none => s.present n
    | _ => s.present n
  | .startSession _ => false
  | _ => s.present n

/-- Whether an unlink of `n` is finished after the step to `base'`. -/
def State.goneAfter (s : State) (base' : Lifecycle.State) (a : Action) (n : Path) : Bool :=
  match a with
  | .unlinkFinish _ _ =>
    match s.base.fileOp with
    | .unlinkHeld path _ => s.gone n || (decide (n = path) && base'.fault.isNone)
    | _ => s.gone n
  | .openReal _ path create => s.gone n && !(create && decide (n = path))
  | _ => s.gone n

/-- Nothing is renamed, and `copy_full_path` leaves out what the callback excludes. -/
def possible (s : Lifecycle.State) : Action → Bool
  | .renameStart _ _ | .renameReal _ | .renameCapture _ _ _ => false
  | .copierStart i file =>
    match s.session.bind fun D => (D.dirs[i]?).map fun d => D.excludeCopy (pathcat d.1 file) with
    | some excluded => !excluded
    | none => false
  | _ => true

def step (hash : Path → Nat) (s : State) (a : Action) : Option State :=
  if possible s.base a then
    (Lifecycle.step hash s.base a).map fun base =>
      { base, present := s.presentAfter a, gone := s.goneAfter base a }
  else none

/-! ## The condition -/

/-- In the backup the path `b` of `source` is the path neither of a file that the callback
excludes nor of another one that has been unlinked. -/
def Distinct (s : State) (D : DirectorySet) (source b : Path) : Prop :=
  ∀ n, D.translatePrefixOfRealpath n = some b →
    D.excludeCopy n = false ∧ (n = source ∨ s.gone n = false)

/-- What is given a path in the backup has it for itself, the copier's included, and the path
is the translated one; capture is enabled when an unlink comes to its section in a session,
the file in the backup can be removed, and when none can be created then there is none and
nothing is open on the source file; a session starts without destinations. -/
def UnlinkedOk (s : State) (a : Action) : Prop :=
  match a with
  | .openCapture _ _ _ | .prepareNext _ _ | .copierCreate _ =>
    ∀ D source b, s.base.session = some D → .mirrored source b ∈ decisions s.base D a →
      Distinct s D source b
  | .copierStart i file =>
    ∀ D d, s.base.session = some D → D.dirs[i]? = some d →
      D.translatePrefixOfRealpath (pathcat d.1 file) = some (pathcat d.2 file)
  | .unlinkFinish created unlinked =>
    ∀ path source D, s.base.fileOp = .unlinkHeld path source → s.base.session = some D →
      s.base.captureEnabled = true ∧ unlinked = true ∧
        (s.base.files.dest source = none → created = false →
          (∀ b, D.translatePrefixOfRealpath path = some b → s.present b = false) ∧
            ∀ fd d, s.base.fds fd = some d → d.stage.source ≠ some source)
  | .startSession _ => ∀ p, s.base.files.dest p = none
  | _ => True

section

variable {hash : Path → Nat} {s s' : State} {b b' : Lifecycle.State} {a : Action} {p : Ptr}
  {F F' : Files}

/-! ## Marks -/

/-- A mark stays. -/
theorem marked_step (h : Effect b a b'.files) {f g : SourceFile} (hf : b.files.heap p = some f)
    (hmarked : f.unlinked = true) (hg : b'.files.heap p = some g) : g.unlinked = true := by
  have hupdate : ∀ q o, b'.files.heap = Function.update b.files.heap q o →
      (∀ g, p = q → o = some g → g.unlinked = true) → g.unlinked = true := by
    intro q o hheap ho
    rw [hheap, Function.update_apply] at hg
    split at hg
    · rename_i hq
      exact ho g hq hg
    · rw [hf] at hg
      cases hg
      exact hmarked
  have hsame : ∀ {q f'}, b.files.heap q = some f' → p = q → f'.unlinked = true := by
    intro q f' hf' hq
    rw [← hq, hf] at hf'
    cases hf'
    exact hmarked
  cases h with
  | same hheap =>
    rw [hheap, hf] at hg
    cases hg
    exact hmarked
  | added q path hdead hheap =>
    refine hupdate q _ hheap fun g hq _ => ?_
    rw [← hq, hf] at hdead
    cases hdead
  | deleted q f' hf' hone hheap => exact hupdate q _ hheap (by simp)
  | counted q f' k hf' hheap =>
    exact hupdate q _ hheap (by rintro g hq ⟨⟩; exact (hsame hf' hq : f'.unlinked = true))
  | created q f' d hf' hnone hheap =>
    exact hupdate q _ hheap (by rintro g hq ⟨⟩; exact (hsame hf' hq : f'.unlinked = true))
  | unhooked h' q f' hun hh' hf' hone hheap =>
    exact hupdate q _ hheap (by rintro g hq ⟨⟩; exact (hsame hf' hq : f'.unlinked = true))
  | disabled i q f' hi hf' hheap =>
    exact hupdate q _ hheap (by rintro g hq ⟨⟩; exact (hsame hf' hq : f'.unlinked = true))
  | marked path q f' d ha hop hf' hmore hsome hheap =>
    exact hupdate q _ hheap (by rintro g hq ⟨⟩; rfl)
  | renamed old_path new_path q f' d ha hop hf' hold hid hheap =>
    exact hupdate q _ hheap (by rintro g hq ⟨⟩; exact (hsame hf' hq : f'.unlinked = true))

theorem tryToRemoveDestination_unlinked (f : SourceFile) :
    f.tryToRemoveDestination.unlinked = f.unlinked := by
  rw [SourceFile.tryToRemoveDestination]
  split
  · rfl
  · split
    · rfl
    · rfl

theorem finishUnlink_marks (h : finishUnlink hash F p = .ok F') {f' : SourceFile}
    (hf' : F'.heap p = some f') : f'.unlinked = true := by
  obtain ⟨f, hf, h⟩ := bind_eq_ok.mp h
  have hf := demand_eq_ok.mp hf
  obtain ⟨F₁, hdest, hremove⟩ := bind_eq_ok.mp h
  rw [Files.modify_of_heap hf] at hdest
  obtain ⟨f₁, hf₁, rfl⟩ := Files.tryToRemoveDestination_heap hdest
  rw [Files.set_heap, Function.update_self] at hf₁
  cases hf₁
  obtain ⟨-, -, f₂, hf₂, -, ⟨-, rfl⟩ | ⟨-, hheap⟩⟩ := Files.tryToRemove_heap hremove
  · rw [Files.set_heap, Function.update_self] at hf₂ hf'
    cases hf₂
    cases hf'
    exact tryToRemoveDestination_unlinked _
  · rw [hheap, Function.update_self] at hf'
    cases hf'

/-- The section of an unlink marks the source file, unless no destination can be created. -/
theorem unlinkSection_marks {path : Path} {created unlinked : Bool} {r : Files × Bool}
    (h : unlinkSection hash b path p created unlinked = .ok r) :
    (∀ f', r.1.heap p = some f' → f'.unlinked = true) ∨
      ∃ D, b.shouldCaptureUnlink path = some D ∧ b.files.dest p = none ∧ created = false := by
  rw [unlinkSection] at h
  split at h
  · rename_i D hcapture
    obtain ⟨⟨ok, F₁⟩, hcreate, h⟩ := bind_eq_ok.mp h
    cases ok with
    | true =>
      obtain ⟨F₂, hfinish, h⟩ := bind_eq_ok.mp h
      cases h
      exact Or.inl fun f' hf' => finishUnlink_marks hfinish hf'
    | false =>
      refine Or.inr ⟨D, hcapture, ?_⟩
      obtain ⟨f, hf, hcreate⟩ := bind_eq_ok.mp hcreate
      have hf := demand_eq_ok.mp hf
      dsimp only at hcreate
      split at hcreate
      · cases hcreate
      obtain ⟨dest_path, -, hcreate⟩ := bind_eq_ok.mp hcreate
      obtain ⟨⟨ok, F₂⟩, hrun, hcreate⟩ := bind_eq_ok.mp hcreate
      dsimp only at hcreate
      split at hcreate
      · rename_i hfailed
        obtain ⟨f', hf', -, -, ⟨-, -, hno⟩ | ⟨hyes, -⟩⟩ :=
          Files.tryToCreateDestinationFile_heap hrun
        · rw [hf] at hf'
          cases hf'
          obtain ⟨hcreated, hnone⟩ := hno (by simpa using hfailed)
          exact ⟨(dest_of_heap hf).trans hnone, hcreated⟩
        · exact absurd hyes (by simpa using hfailed)
      · obtain ⟨g, -, hcreate⟩ := bind_eq_ok.mp hcreate
        obtain ⟨d, -, hcreate⟩ := bind_eq_ok.mp hcreate
        cases hcreate
  · obtain ⟨F₂, hfinish, h⟩ := bind_eq_ok.mp h
    cases h
    exact Or.inl fun f' hf' => finishUnlink_marks hfinish hf'

/-- The last step of an unlink: its section, or a fault. -/
theorem unlinkFinish_cases {created unlinked : Bool}
    (hstep : Lifecycle.step hash b (.unlinkFinish created unlinked) = some b') :
    ∃ path source, b.fileOp = .unlinkHeld path source ∧ b'.fds = b.fds ∧
      (b'.fault ≠ none ∨ ∃ r, unlinkSection hash b path source created unlinked = .ok r ∧
        b'.files = r.1) := by
  unfold Lifecycle.step at hstep
  split at hstep
  · cases hstep
  · cases fileOpStep_of_stepFileOp hstep with
    | unlinkFinish _ _ path source hop _ hsection =>
      refine ⟨path, source, hop, ?_⟩
      obtain ⟨e, rfl⟩ | ⟨r, hrun, rfl⟩ := State.attempt_cases hsection
      · exact ⟨rfl, Or.inl (by simp)⟩
      · exact ⟨rfl, Or.inr ⟨r, hrun, rfl⟩⟩

/-! ## Names -/

theorem openReal_names {fd : Nat} {path : Path} {create : Bool}
    (hstep : Lifecycle.step hash b (.openReal fd path create) = some b') {n : Path}
    (hn : b'.names n ≠ none) : b.names n ≠ none ∨ n = path ∧ create = true := by
  unfold Lifecycle.step at hstep
  split at hstep
  · cases hstep
  · cases openStep_of_stepOpen hstep with
    | existing _ _ i _ _ hs' =>
      subst hs'
      exact Or.inl hn
    | found _ _ i _ _ _ hs' =>
      subst hs'
      exact Or.inl hn
    | new _ _ _ _ _ hs' =>
      subst hs'
      by_cases hpath : n = path
      · exact Or.inr ⟨hpath, rfl⟩
      · have hn : Function.update b.names path (some b.freshInode) n ≠ none := hn
        rw [Function.update_of_ne hpath] at hn
        exact Or.inl hn

theorem stepOpen_names (ha : ∀ fd path create, a ≠ .openReal fd path create)
    (hstep : stepOpen hash b a = some b') : b'.names = b.names := by
  cases openStep_of_stepOpen hstep with
  | existing fd path => exact absurd rfl (ha fd path false)
  | found fd path => exact absurd rfl (ha fd path true)
  | new fd path => exact absurd rfl (ha fd path true)
  | untracked fd d _ _ _ hs' =>
    subst hs'
    rfl
  | attach fd d _ _ _ hsection =>
    obtain ⟨e, rfl⟩ | ⟨r, -, rfl⟩ := State.attempt_cases hsection
    · rfl
    · rfl
  | publish fd d source _ _ _ hs' =>
    subst hs'
    rfl
  | capture fd opened created d source captured _ _ _ _ hsection =>
    obtain ⟨e, rfl⟩ | ⟨r, -, rfl⟩ := State.attempt_cases hsection
    · rfl
    · rfl

/-- Without renames only a real `open` gives a file a name. -/
theorem names_back (hpossible : possible b a = true)
    (hstep : Lifecycle.step hash b a = some b') {n : Path} (hn : b'.names n ≠ none) :
    b.names n ≠ none ∨ ∃ fd, a = .openReal fd n true := by
  by_cases ha : ∃ fd path create, a = .openReal fd path create
  · obtain ⟨fd, path, create, rfl⟩ := ha
    obtain hold | ⟨rfl, rfl⟩ := openReal_names hstep hn
    · exact Or.inl hold
    · exact Or.inr ⟨fd, rfl⟩
  · have hsame : b'.names = b.names → b.names n ≠ none := fun hnames => hnames ▸ hn
    refine Or.inl ?_
    obtain ⟨-, hopen | hclose | hop | hthread | hback⟩ := step_cases hstep
    · exact hsame (stepOpen_names (fun fd path create h => ha ⟨fd, path, create, h⟩) hopen)
    · exact hsame (stepClose_frame hclose).1.names
    · cases stepFileOp_operates hop with
      | failed hnames _ => exact hsame hnames.names
      | unlinkStart _ _ _ hnames => exact hsame hnames
      | aborted _ _ hnames => exact hsame hnames
      | unlinked path _ _ hnames =>
        rw [hnames, Function.update_apply] at hn
        split at hn
        · exact absurd rfl hn
        · exact hn
      | held _ _ _ _ hnames _ => exact hsame hnames
      | finished _ _ _ _ _ hnames => exact hsame hnames
      | renameStart _ _ hact => rw [hact] at hpossible; cases hpossible
      | renamed _ _ hact =>
        obtain ⟨ok, rfl⟩ := hact
        cases hpossible
      | captured _ _ _ _ _ hact => rw [hact] at hpossible; cases hpossible
    · exact hsame (stepThread_frame hthread).1.names
    · exact hsame (stepBackup_frame hback).1.names

/-! ## The invariant -/

/-- The source file of an fd and the copier's have the path as their name; an unlinked path
has no file, and the source file of an fd there is marked; a destination is at the translated
name; and in the backup nothing exists at the path of an excluded or an unlinked file. -/
structure Inv (hash : Path → Nat) (s : State) : Prop where
  base : Base hash False s.base
  op : OpNamed s.base
  unlinking : Gone s.base
  included : CopierIncluded s.base
  copier : ∀ c, s.base.backup = .copying c → s.base.files.name c.file = some c.src ∧
    ∀ D, s.base.session = some D → D.translatePrefixOfRealpath c.src = some c.dst
  named : ∀ fd d p, s.base.fds fd = some d → d.stage.source = some p →
    s.base.files.name p = some d.path
  absent : ∀ n, s.gone n = true → s.base.names n = none
  marked : ∀ fd d p f, s.base.fds fd = some d → d.stage.source = some p → s.gone d.path = true →
    s.base.files.heap p = some f → f.unlinked = true
  paths : ∀ D p d, s.base.session = some D → s.base.files.dest p = some d →
    ∃ n, s.base.files.name p = some n ∧ D.translatePrefixOfRealpath n = some d.path
  wanted : ∀ D n b, s.base.session = some D → D.translatePrefixOfRealpath n = some b →
    s.present b = true → D.excludeCopy n = false
  away : ∀ D n b, s.base.session = some D → s.gone n = true →
    D.translatePrefixOfRealpath n = some b → s.present b = false

/-- A start without files in the backup. -/
def State.ofBase (b : Lifecycle.State) : State := ⟨b, fun _ => false, fun _ => false⟩

theorem inv_initial (h : Lifecycle.Initial b) : Inv hash (.ofBase b) where
  base := base_initial h
  op := opNamed_initial h
  unlinking := gone_initial h
  included c hc := by
    have hc : b.backup = .copying c := hc
    rw [h.backup] at hc
    cases hc
  copier c hc := by
    have hc : b.backup = .copying c := hc
    rw [h.backup] at hc
    cases hc
  named fd d p hd := by
    have hd : b.fds fd = some d := hd
    rw [h.fds] at hd
    cases hd
  absent n hn := by cases hn
  marked fd d p f hd := by
    have hd : b.fds fd = some d := hd
    rw [h.fds] at hd
    cases hd
  paths D p d hD := by
    have hD : b.session = some D := hD
    rw [h.session] at hD
    cases hD
  wanted D n path hD := by
    have hD : b.session = some D := hD
    rw [h.session] at hD
    cases hD
  away D n path hD hn := by cases hn

/-! ## The backup -/

theorem create_back {source : Ptr} {full_path : Path} {created : Bool} {present : Path → Bool}
    {n : Path} (h : create F source full_path created present n = true) :
    present n = true ∨ n = full_path ∧ ∃ f, F.heap source = some f ∧ f.unlinked = false := by
  rw [create] at h
  split at h
  · rename_i f hf
    split at h
    · rename_i hcreates
      exact Or.inr ⟨hcreates.2.2.2, f, hf, hcreates.2.1⟩
    · exact Or.inl h
  · exact Or.inl h

theorem Inv.gone_of_name (h : Inv hash s) {n : Path} (hn : s.base.names n ≠ none) :
    s.gone n = false := by
  rw [Bool.eq_false_iff]
  intro hgone
  exact hn (h.absent n hgone)

/-- What is in the backup after a step was there before, or it is the file of a path that has
not been unlinked. -/
theorem present_back (h : Inv hash s) (hok : UnlinkedOk s a) {b : Path}
    (hb : s.presentAfter a b = true) : s.present b = true ∨
      ∃ D source, s.base.session = some D ∧ Distinct s D source b ∧ s.gone source = false := by
  cases a with
  | openCapture fd opened created =>
    simp only [State.presentAfter] at hb
    split at hb
    · rename_i D d hsession hd
      split at hb
      · rename_i source backup_file_name hstage htranslate
        split at hb
        · rename_i hcaptured
          obtain ⟨hname, hexcluded, -⟩ := hcaptured
          obtain hold | ⟨rfl, -⟩ := create_back hb
          · exact Or.inl hold
          · refine Or.inr ⟨D, d.path, hsession, hok D d.path b hsession ?_, h.gone_of_name hname⟩
            simp only [decisions, hd]
            rw [if_neg hname]
            exact Exclusion.mem_fileDecisions htranslate hexcluded
        · exact Or.inl hb
      · exact Or.inl hb
    · exact Or.inl hb
  | prepareNext opened created =>
    simp only [State.presentAfter] at hb
    split at hb
    · rename_i D i hsession hi
      split at hb
      · rename_i source hmapped
        split at hb
        · rename_i file_name htranslate
          obtain ⟨name, hname, htranslate⟩ := Option.bind_eq_some_iff.mp htranslate
          split at hb
          · rename_i hprepared
            obtain ⟨hlt, hexcluded, -⟩ := hprepared
            obtain hold | ⟨rfl, f, hf, hlinked⟩ := create_back hb
            · exact Or.inl hold
            · refine Or.inr ⟨D, name, hsession, hok D name b hsession ?_, ?_⟩
              · simp only [decisions, hi, hmapped, Option.bind_some, hname]
                rw [if_pos hlt]
                exact List.mem_append_left _ (Exclusion.mem_fileDecisions htranslate hexcluded)
              · -- an fd of an unlinked path would have a marked source file
                rw [Bool.eq_false_iff]
                intro hgone
                obtain ⟨d, hd, -⟩ := Option.bind_eq_some_iff.mp hmapped
                have hsource : d.stage.source = some source := by
                  rw [← heldBy_fd hd]
                  exact mapped_source hmapped
                have hpath := h.named i d source hd hsource
                rw [hname] at hpath
                cases hpath
                rw [h.marked i d source f hd hsource hgone hf] at hlinked
                cases hlinked
          · exact Or.inl hb
        · exact Or.inl hb
      · exact Or.inl hb
    · exact Or.inl hb
  | copierCreate created =>
    simp only [State.presentAfter] at hb
    split at hb
    · rename_i c hc
      split at hb
      · rename_i hname
        obtain hold | ⟨rfl, -⟩ := create_back hb
        · exact Or.inl hold
        · obtain ⟨D, hsession, -⟩ := h.included c hc
          refine Or.inr ⟨D, c.src, hsession, hok D c.src c.dst hsession ?_, h.gone_of_name hname⟩
          simp only [decisions, hc]
          rw [if_neg hname]
          exact List.mem_singleton_self _
      · exact Or.inl hb
    · exact Or.inl hb
  | unlinkFinish created unlinked =>
    refine Or.inl ?_
    simp only [State.presentAfter] at hb
    split at hb
    · rename_i path source hop
      split at hb
      · rename_i D hcapture
        obtain ⟨-, rfl, -⟩ := hok path source D hop (State.shouldCaptureUnlink_some hcapture).1
        split at hb
        · split at hb
          · cases hb
          · exact hb
        · split at hb
          · cases hb
          · exact hb
        · exact hb
      · exact hb
    · exact hb
  | startSession D => cases hb
  | _ => exact Or.inl hb

/-- The section of an unlink leaves nothing at the path in the backup. -/
theorem unlinkFinish_away (h : Inv hash s) {created unlinked : Bool}
    (hok : UnlinkedOk s (.unlinkFinish created unlinked)) {path b : Path} {source : Ptr}
    {D : DirectorySet} (hop : s.base.fileOp = .unlinkHeld path source)
    (hsession : s.base.session = some D) (hb : D.translatePrefixOfRealpath path = some b) :
    s.presentAfter (.unlinkFinish created unlinked) b = false := by
  obtain ⟨henabled, rfl, hnone⟩ := hok path source D hop hsession
  simp only [State.presentAfter, hop]
  split
  · rename_i D' hcapture
    have hD' := (State.shouldCaptureUnlink_some hcapture).1
    rw [hsession] at hD'
    cases hD'
    split
    · rename_i dest hdest
      obtain ⟨n, hn, hpath⟩ := h.paths D source dest hsession hdest
      rw [h.unlinking.held path source hop] at hn
      cases hn
      rw [hb] at hpath
      cases hpath
      exact if_pos ⟨trivial, rfl⟩
    · rename_i dest_path hdest htranslate
      rw [hb] at htranslate
      cases htranslate
      split
      · rfl
      · rename_i hcreated
        exact (hnone hdest (by simpa using hcreated)).1 b hb
    · rename_i htranslate
      rw [hb] at htranslate
      cases htranslate
  · rename_i hcapture
    -- a file that is not captured is excluded, and then it has no file in the backup
    rw [Bool.eq_false_iff]
    intro hpresent
    have hwanted := h.wanted D path b hsession hb hpresent
    rw [State.shouldCaptureUnlink, hsession] at hcapture
    dsimp only at hcapture
    rw [if_pos ⟨henabled, D.prefix_of_translate hb, by simp [DirectorySet.fileIsExcluded, hwanted]⟩]
      at hcapture
    cases hcapture

/-! ## Steps -/

theorem gone_back {n : Path} (h : s.goneAfter b' a n = true) : s.gone n = true ∨
    ∃ created unlinked source, a = .unlinkFinish created unlinked ∧
      s.base.fileOp = .unlinkHeld n source ∧ b'.fault = none := by
  cases a with
  | unlinkFinish created unlinked =>
    simp only [State.goneAfter] at h
    split at h
    · rename_i path source hop
      obtain hold | hnew := Bool.or_eq_true_iff.mp h
      · exact Or.inl hold
      · obtain ⟨hn, hfault⟩ := Bool.and_eq_true_iff.mp hnew
        rw [decide_eq_true_eq] at hn
        rw [Option.isNone_iff_eq_none] at hfault
        rw [hn]
        exact Or.inr ⟨created, unlinked, source, rfl, hop, hfault⟩
    · exact Or.inl h
  | openReal fd path create => exact Or.inl (Bool.and_eq_true_iff.mp h).1
  | _ => exact Or.inl h

theorem name_stays (hpossible : possible b a = true) (heffect : Effect b a b'.files) {n : Path}
    (hn : b.files.name p = some n) (hlive : b'.files.heap p ≠ none) :
    b'.files.name p = some n := by
  obtain hsame | ⟨_, ⟨created, renamed, enoent, rfl⟩, -⟩ := heffect.name hn hlive
  · exact hsame
  · cases hpossible

/-- In the session a new destination is at the translated name of its source file. -/
def AtName (b : Lifecycle.State) (p : Ptr) (d : DestinationFile) : Prop :=
  ∃ n, b.files.name p = some n ∧ ∀ D, b.session = some D →
    D.translatePrefixOfRealpath n = some d.path

theorem sectionsGrow_atName (h : Inv hash s) (hpossible : possible s.base a = true) :
    SectionsGrow hash s.base a (AtName s.base) where
  opened := by
    intro fd opened created d source D r _ hd hstage _ hsession hrun
    refine captureOpen_grows (fun id b _ hb _ => ⟨d.path, ?_, fun D' hD' => ?_⟩) hrun
    · exact h.named fd d source hd (by rw [hstage]; rfl)
    · rw [hsession] at hD'
      cases hD'
      exact hb
  unlinked := by
    intro created unlinked path source r _ hop _ hrun
    refine unlinkSection_grows (fun id D b hcapture hb => ⟨path, ?_, fun D' hD' => ?_⟩) hrun
    · exact h.unlinking.held path source hop
    · rw [(State.shouldCaptureUnlink_some hcapture).1] at hD'
      cases hD'
      exact hb
  renamed := by
    intro created renamed enoent old_path new_path D o r ha
    rw [ha] at hpossible
    cases hpossible
  prepared := by
    intro opened created i source D r _ _ _ _ hsession hrun
    refine prepare_grows (fun id name b hname hb _ => ⟨name, hname, fun D' hD' => ?_⟩) hrun
    rw [hsession] at hD'
    cases hD'
    exact hb
  copied := by
    intro created c r _ hc hrun
    obtain ⟨hname, htranslate⟩ := h.copier c hc
    exact createDestination_grows (fun id _ => ⟨c.src, hname, htranslate⟩) hrun

theorem Inv.copier_step (h : Inv hash s) (hok : UnlinkedOk s a)
    (hpossible : possible s.base a = true)
    (hb' : Base hash False b') (heffect : Effect s.base a b'.files)
    (hstep : Lifecycle.step hash s.base a = some b') {c' : Copier} (hc' : b'.backup = .copying c') :
    b'.files.name c'.file = some c'.src ∧
      ∀ D, b'.session = some D → D.translatePrefixOfRealpath c'.src = some c'.dst := by
  obtain ⟨hsession, hfrom⟩ := (step_from hstep).2 c' hc'
  rw [hsession]
  cases hfrom with
  | stays c hc hsrc hdst hfile =>
    obtain ⟨hname, htranslate⟩ := h.copier c hc
    rw [hsrc, hdst]
    refine ⟨name_stays hpossible heffect (hfile ▸ hname) (hb'.held .copier _ ?_), htranslate⟩
    rw [State.heldBy, hc']
    rfl
  | starts i file source destination D ha hD hdir hsrc hdst hrun =>
    refine ⟨Files.name_of_getOrCreate hrun, fun D' hD' => ?_⟩
    rw [hD] at hD'
    cases hD'
    subst ha
    rw [hsrc, hdst]
    exact hok D (source, destination) hD hdir

theorem Inv.named_step (h : Inv hash s) (hpossible : possible s.base a = true)
    (hb' : Base hash False b') (heffect : Effect s.base a b'.files)
    (hstep : Lifecycle.step hash s.base a = some b') {fd : Nat} {d' : Fd}
    (hd' : b'.fds fd = some d') (hp : d'.stage.source = some p) :
    b'.files.name p = some d'.path := by
  obtain ⟨d, hd, hpath, -, hp'⟩ | ⟨-, d, -, hpath, -, hrun⟩ := source_back hstep hd' hp
  · rw [hpath]
    refine name_stays hpossible heffect (h.named fd d p hd hp') (hb'.held (.fd fd) p ?_)
    rw [heldBy_fd hd', hp]
  · rw [hpath]
    exact Files.name_of_getOrCreate hrun

theorem Inv.absent_step (h : Inv hash s) (hpossible : possible s.base a = true)
    (hstep : Lifecycle.step hash s.base a = some b') {n : Path} (hn : s.goneAfter b' a n = true) :
    b'.names n = none := by
  by_contra hname
  obtain hname | ⟨fd, rfl⟩ := names_back hpossible hstep hname
  · obtain hold | ⟨created, unlinked, source, -, hop, -⟩ := gone_back hn
    · exact hname (h.absent n hold)
    · exact hname (h.unlinking.names n (Or.inr ⟨source, hop⟩))
  · simp [State.goneAfter] at hn

/-- The source file of an fd with an unlinked path is marked after the step. -/
theorem Inv.marked_step (h : Inv hash s) (hok : UnlinkedOk s a) (heffect : Effect s.base a b'.files)
    (hstep : Lifecycle.step hash s.base a = some b') {fd : Nat} {d' : Fd}
    (hd' : b'.fds fd = some d') (hp : d'.stage.source = some p)
    (hgone : s.goneAfter b' a d'.path = true) {f' : SourceFile} (hf' : b'.files.heap p = some f') :
    f'.unlinked = true := by
  obtain ⟨d, hd, hpath, -, hp'⟩ | ⟨rfl, d, hd, hpath, hname, -⟩ := source_back hstep hd' hp
  · have hheld : s.base.heldBy (.fd fd) = some p := by rw [heldBy_fd hd, hp']
    rw [hpath] at hgone
    obtain hold | ⟨created, unlinked, source, rfl, hop, hfault⟩ := gone_back hgone
    · obtain ⟨f, hf, -⟩ := h.base.live hheld
      exact Unlinked.marked_step heffect hf (h.marked fd d p f hd hp' hold hf) hf'
    · obtain ⟨path, source', hop', -, hbad | ⟨r, hrun, hfiles⟩⟩ := unlinkFinish_cases hstep
      · exact absurd hfault hbad
      rw [hop] at hop'
      cases hop'
      -- the table has one source file of the name
      have hsource : p = source := by
        obtain ⟨-, -, hmem, -⟩ := h.base.live hheld
        obtain ⟨-, -, hmem', -⟩ := h.base.live (h := .fileOp) (p := source) (by
          rw [State.heldBy, hop]
          rfl)
        exact h.base.rep.inj p source d.path hmem hmem' (h.named fd d p hd hp')
          (h.unlinking.held _ source hop)
      rw [hfiles, hsource] at hf'
      obtain hmarks | ⟨D, hcapture, hnone, hcreated⟩ := unlinkSection_marks hrun
      · exact hmarks f' hf'
      · obtain ⟨-, -, hleft⟩ := hok d.path source D hop (State.shouldCaptureUnlink_some hcapture).1
        rw [hsource] at hp'
        exact absurd hp' ((hleft hnone hcreated).2 fd d hd)
  · rw [hpath] at hgone
    have hnot := h.gone_of_name hname
    have hgone : s.gone d.path = true := hgone
    rw [hnot] at hgone
    cases hgone

theorem Inv.paths_step (h : Inv hash s) (hok : UnlinkedOk s a)
    (hpossible : possible s.base a = true)
    (heffect : Effect s.base a b'.files) (hstep : Lifecycle.step hash s.base a = some b')
    {D : DirectorySet} (hD : b'.session = some D) {d : DestinationFile}
    (hd : b'.files.dest p = some d) :
    ∃ n, b'.files.name p = some n ∧ D.translatePrefixOfRealpath n = some d.path := by
  obtain ⟨f', hf', -⟩ := Option.bind_eq_some_iff.mp hd
  have hlive : b'.files.heap p ≠ none := by simp [hf']
  cases (step_from hstep).1 with
  | same hsession =>
    rw [hsession] at hD
    obtain hold | ⟨n, hn, htranslate⟩ := step_grows (sectionsGrow_atName h hpossible) hstep p d hd
    · obtain ⟨n, hn, htranslate⟩ := h.paths D p d hD hold
      exact ⟨n, name_stays hpossible heffect hn hlive, htranslate⟩
    · exact ⟨n, name_stays hpossible heffect hn hlive, htranslate D hD⟩
  | started D' ha _ _ hfiles =>
    subst ha
    rw [hfiles, hok p] at hd
    cases hd
  | ended hsession =>
    rw [hsession] at hD
    cases hD

theorem inv_step (h : Inv hash s) (hok : UnlinkedOk s a) (hstep : step hash s a = some s') :
    Inv hash s' := by
  rw [step] at hstep
  split at hstep
  · rename_i hpossible
    obtain ⟨b', hbase, rfl⟩ := Option.map_eq_some_iff.mp hstep
    have hrename : RenameFits hash s.base a := by
      cases a with
      | renameCapture created renamed enoent => cases hpossible
      | _ => trivial
    obtain ⟨hb', heffect⟩ := base_step h.base h.op.done hrename False.elim hbase
    refine ⟨hb', opNamed_step h.op hbase, gone_step h.unlinking hb' heffect hbase, ?_,
      fun c hc => h.copier_step hok hpossible hb' heffect hbase hc,
      fun fd d p => h.named_step hpossible hb' heffect hbase,
      fun n => h.absent_step hpossible hbase,
      fun fd d p f hd hp hgone hf => h.marked_step hok heffect hbase hd hp hgone hf,
      fun D p d hD hd => h.paths_step hok hpossible heffect hbase hD hd,
        fun D n b hD hb hpresent => ?_,
      fun D n b hD hgone hb => ?_⟩
    · refine Exclusion.copierIncluded_step h.included ?_ hbase
      intro i file D source destination ha hD hdir
      simpa [ha, possible, hD, hdir] using hpossible
    · cases (step_from hbase).1 with
      | same hsession =>
        rw [hsession] at hD
        obtain hold | ⟨D', source, hD', hdistinct, -⟩ := present_back h hok hpresent
        · exact h.wanted D n b hD hb hold
        · rw [hD] at hD'
          cases hD'
          exact (hdistinct n hb).1
      | started D' ha =>
        subst ha
        cases hpresent
      | ended hsession =>
        rw [hsession] at hD
        cases hD
    · cases (step_from hbase).1 with
      | same hsession =>
        rw [hsession] at hD
        obtain hold | ⟨created, unlinked, source, rfl, hop, -⟩ := gone_back hgone
        · rw [Bool.eq_false_iff]
          intro hpresent
          obtain hbefore | ⟨D', source, hD', hdistinct, hsource⟩ := present_back h hok hpresent
          · rw [h.away D n b hD hold hb] at hbefore
            cases hbefore
          · rw [hD] at hD'
            cases hD'
            obtain rfl | hn := (hdistinct n hb).2
            · rw [hold] at hsource
              cases hsource
            · rw [hold] at hn
              cases hn
        · exact unlinkFinish_away h hok hop hD hb
      | started D' ha =>
        subst ha
        rfl
      | ended hsession =>
        rw [hsession] at hD
        cases hD
  · cases hstep

/-- In every run whose steps meet the condition: as long as a session lasts, nothing exists in
its backup at the translated path of a file whose unlink is finished, wherever the preparation
and the copier are. -/
theorem unlinked_stays_away (hash : Path → Nat) (hinit : Lifecycle.Initial b) {as : List Action}
    (hok : RunOk (step hash) UnlinkedOk (.ofBase b) as)
    (hrun : run (step hash) (.ofBase b) as = some s) :
    ∀ D p dest, s.base.session = some D → s.gone p = true →
      D.translatePrefixOfRealpath p = some dest → s.present dest = false := by
  have hstart : Inv hash (.ofBase b) := inv_initial hinit
  have hend : Inv hash s := run_invariant (fun _ _ _ => inv_step) hstart hok hrun
  exact hend.away

end

/-! ## Examples -/

/-- What can be computed of the condition when the sessions back up `/s` to `/d`. -/
def Plain (s : State) (a : Action) : Prop :=
  match a with
  | .openCapture _ _ _ | .prepareNext _ _ | .copierCreate _ =>
    ∀ D ∈ s.base.session, ∀ d ∈ decisions s.base D a,
      match d with
      | .mirrored source b => D.translatePrefixOfRealpath source = some b
      | _ => True
  | .copierStart i file =>
    ∀ D ∈ s.base.session, ∀ d ∈ D.dirs[i]?,
      D.translatePrefixOfRealpath (pathcat d.1 file) = some (pathcat d.2 file)
  | .unlinkFinish created unlinked =>
    s.base.captureEnabled = true ∧ unlinked = true ∧ created = true
  | .startSession _ => ∀ p < s.base.files.fresh, s.base.files.dest p = none
  | _ => True

instance decidablePlain (s : State) (a : Action) : Decidable (Plain s a) := by
  have : ∀ (D : DirectorySet) (d : Decision), Decidable (match d with
      | .mirrored source b => D.translatePrefixOfRealpath source = some b
      | _ => True) := by
    intro D d
    cases d with
    | mirrored source b => infer_instance
    | leftOut source => exact isTrue trivial
    | made directory => exact isTrue trivial
  apply @Lifecycle.Action.casesOn (fun a => Decidable (Plain s a)) a
  case openCapture | prepareNext | copierCreate | copierStart | unlinkFinish | startSession =>
    intros
    unfold Plain
    infer_instance
  all_goals
    intros
    exact isTrue trivial

theorem slashS_translate {n b : Path} (h : slashS.translatePrefixOfRealpath n = some b) :
    n = ['/', 's'] ++ b.drop 2 := by
  obtain ⟨index, hindex, h⟩ := Option.bind_eq_some_iff.mp h
  obtain ⟨⟨source, destination⟩, hdir, h⟩ := Option.bind_eq_some_iff.mp h
  obtain ⟨hlt, hfound, -⟩ := List.findIdx?_eq_some_iff_getElem.mp hindex
  have hzero : index = 0 := by
    have hlt : index < 1 := hlt
    omega
  subst hzero
  cases hdir
  obtain ⟨rest, rfl⟩ := List.isPrefixOf_iff_prefix.mp hfound
  cases h
  rfl

theorem unlinkedOk_of_plain {hash : Path → Nat} {s : State} {a : Action}
    (hbase : Base hash False s.base)
    (hsession : s.base.session = none ∨ s.base.session = some slashS)
    (h : Plain s a) : UnlinkedOk s a := by
  have hplain : ∀ {D : DirectorySet}, s.base.session = some D → D = slashS := by
    intro D hD
    obtain hnone | hsome := hsession
    · rw [hnone] at hD
      cases hD
    · rw [hsome] at hD
      exact (Option.some.inj hD).symm
  have hdistinct : ∀ D source b, s.base.session = some D →
      D.translatePrefixOfRealpath source = some b → Distinct s D source b := by
    intro D source b hD hb n hn
    rw [hplain hD] at hb hn ⊢
    exact ⟨rfl, Or.inl ((slashS_translate hn).trans (slashS_translate hb).symm)⟩
  cases a with
  | openCapture fd opened created =>
    exact fun D source b hD hd => hdistinct D source b hD (h D hD _ hd)
  | prepareNext opened created =>
    exact fun D source b hD hd => hdistinct D source b hD (h D hD _ hd)
  | copierCreate created => exact fun D source b hD hd => hdistinct D source b hD (h D hD _ hd)
  | copierStart i file => exact fun D d hD hd => h D hD d hd
  | unlinkFinish created unlinked =>
    obtain ⟨henabled, hunlinked, hcreated⟩ := h
    refine fun path source D _ _ => ⟨henabled, hunlinked, fun _ hno => ?_⟩
    rw [hcreated] at hno
    cases hno
  | startSession D =>
    intro p
    cases hf : s.base.files.heap p with
    | none =>
      rw [Files.dest, hf]
      rfl
    | some f => exact h p (hbase.fresh p f hf)
  | _ => trivial

/-- A file is open; the real `unlink` is done when the start of a session prepares the fd, and
the copier comes before the section. -/
def unlinkedAcrossStart : List Action :=
  [.openReal 0 ['/', 's', '/', 'a'] false, .openAttach 0, .openPublish 0, .openCapture 0 true true,
    .unlinkStart ['/', 's', '/', 'a'], .unlinkReal true, .startSession slashS,
    .prepareNext true true, .prepareNext true true, .copierStart 0 ['/', 'a'], .unlinkHold,
    .copierOpen true, .unlinkFinish true true, .copierRelease]

theorem unlinked_stays_away_unlinkedAcrossStart :
    ∃ s, run (step List.length) (.ofBase (start true)) unlinkedAcrossStart = some s ∧
      s.base.session = some slashS ∧ s.gone ['/', 's', '/', 'a'] = true ∧
      s.present ['/', 'd', '/', 'a'] = false := by
  have hplain : RunOk (step List.length) Plain (.ofBase (start true)) unlinkedAcrossStart := by
    decide +kernel
  have hstarts : RunOk (step List.length) (fun _ a => ∀ D, a = .startSession D → D = slashS)
      (.ofBase (start true)) unlinkedAcrossStart := by
    refine runOk_of_mem fun a ha _ D hD => ?_
    subst hD
    simpa [unlinkedAcrossStart] using ha
  have hok : RunOk (step List.length) UnlinkedOk (.ofBase (start true)) unlinkedAcrossStart := by
    refine @runOk_mono _ _ _ _ _
      (fun s => Base List.length False s.base ∧ OpNamed s.base ∧
        (s.base.session = none ∨ s.base.session = some slashS))
      (fun s a s' hs hok hstep => ?_) (fun s a hs hok => unlinkedOk_of_plain hs.1 hs.2.2 hok.1) _ _
      ⟨base_initial (initial_start true), opNamed_initial (initial_start true), Or.inl rfl⟩
      (hplain.and hstarts)
    obtain ⟨hb, hop, hsession⟩ := hs
    rw [step] at hstep
    split at hstep
    · rename_i hpossible
      obtain ⟨b', hbase, rfl⟩ := Option.map_eq_some_iff.mp hstep
      have hrename : RenameFits List.length s.base a := by
        cases a with
        | renameCapture created renamed enoent => cases hpossible
        | _ => trivial
      refine ⟨(base_step hb hop.done hrename False.elim hbase).1, opNamed_step hop hbase, ?_⟩
      cases (step_from hbase).1 with
      | same hsame => rwa [← hsame] at hsession
      | started D ha _ hD _ => exact Or.inr (hok.2 D ha ▸ hD)
      | ended hended => exact Or.inl hended
    · cases hstep
  have hrun : ∃ s, run (step List.length) (.ofBase (start true)) unlinkedAcrossStart = some s ∧
      s.base.session = some slashS ∧ s.gone ['/', 's', '/', 'a'] = true := ⟨_, rfl, rfl, rfl⟩
  obtain ⟨s, hrun, hsession, hgone⟩ := hrun
  exact ⟨s, hrun, hsession, hgone, unlinked_stays_away List.length (initial_start true) hok hrun
    slashS _ _ hsession hgone (by decide)⟩

/-- Every call on the backup's side succeeds. -/
def Succeeds : Action → Bool
  | .openCapture _ opened created => opened && created
  | .prepareNext opened created => opened && created
  | .unlinkFinish created unlinked => created && unlinked
  | .copierCreate created => created
  | .copierOpen ok => ok
  | .copierDone ok => ok
  | .error => false
  | _ => true

/-- A source directory inside another one. -/
def nested : DirectorySet :=
  ⟨[(['/', 's'], ['/', 'd']), (['/', 's', '/', 'b'], ['/', 'e'])], fun _ => false⟩

/-- Nothing has happened yet, and there is one file, in the inner directory. -/
def startNested : Lifecycle.State :=
  { start false with
    names := Function.update (fun _ => none) ['/', 's', '/', 'b', '/', 'a'] (some 0) }

theorem initial_startNested : Lifecycle.Initial startNested := by
  have hnames : ∀ p i, startNested.names p = some i →
      p = ['/', 's', '/', 'b', '/', 'a'] ∧ i = 0 := by
    intro p i hp
    have hp :
      Function.update (fun _ => none) ['/', 's', '/', 'b', '/', 'a'] (some 0) p = some i := hp
    rw [Function.update_apply] at hp
    split at hp
    · rename_i heq
      cases hp
      exact ⟨heq, rfl⟩
    · cases hp
  refine ⟨fun p q i hp hq => ?_, fun p i hp => ?_, rfl, fun _ => rfl, rfl, rfl, rfl, ?_, rfl⟩
  · rw [(hnames p i hp).1, (hnames q i hq).1]
  · rw [(hnames p i hp).2]
    exact Nat.one_pos
  · simp [startNested, start]

/-- The file is unlinked while the copier is at it for the inner directory. -/
def unlinkedInInner : List Action :=
  [.startSession nested, .prepareNext true true, .copierStart 0 ['/', 'b', '/', 'a'],
    .copierOpen true, .copierCreate true, .copierDone true, .copierUnhook, .copierRelease,
    .copierStart 1 ['/', 'a'], .copierOpen true, .copierCreate true,
    .unlinkStart ['/', 's', '/', 'b', '/', 'a'], .unlinkReal true, .unlinkHold,
    .unlinkFinish true true]

/-- The section unlinks the destination of the inner directory, and the copy at the translated
path stays. -/
theorem not_unlinked_stays_away_unlinkedInInner :
    ¬ ∀ hash b as s, Lifecycle.Initial b → (∀ a ∈ as, Succeeds a = true) →
      run (step hash) (.ofBase b) as = some s →
      ∀ D p dest, s.base.session = some D → s.gone p = true →
        D.translatePrefixOfRealpath p = some dest → s.present dest = false := by
  intro h
  have hrun : ∃ s, run (step List.length) (.ofBase startNested) unlinkedInInner = some s ∧
      s.base.session = some nested ∧ s.gone ['/', 's', '/', 'b', '/', 'a'] = true ∧
      s.present ['/', 'd', '/', 'b', '/', 'a'] = true := ⟨_, rfl, rfl, rfl, rfl⟩
  obtain ⟨s, hrun, hsession, hgone, hpresent⟩ := hrun
  have hfalse := h List.length startNested _ s initial_startNested (by decide) hrun nested _
    ['/', 'd', '/', 'b', '/', 'a'] hsession hgone (by decide)
  rw [hpresent] at hfalse
  cases hfalse

end TokuBackup.Lifecycle.Unlinked
