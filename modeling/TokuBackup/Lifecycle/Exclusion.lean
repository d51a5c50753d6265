import TokuBackup.Lifecycle.NewDestinations

/-!
# The exclude callback

The callback is a predicate on source paths. The copier asks it about the source path of
every entry, and `unlink` about the source path of the file. `capture_open` and
`prepare_directories_for_backup` ask it about the path in the backup, the latter ends its
loop at the first excluded file, and `capture_rename` does not ask at all. The copier prunes
an excluded directory; `open_path` makes the backup of any directory above a captured file.

The machine below adds to the life of the files what each site decides: a log of the source
files that are given a backup path, of those that the callback leaves out, and of the
directories that are made.
-/

namespace TokuBackup

open Kernel

namespace DirectorySet

variable (D : DirectorySet)

/-- The directories of the source above `file`, the source directory among them. -/
def parents (file : Path) : List Path :=
  match (D.findIndexMatchingPrefix file).bind fun index => D.dirs[index]? with
  | some (source, _) =>
    ((List.range file.length).filter fun k => source.length ≤ k ∧ file[k]? = some '/').map file.take
  | none => []

/-- The callback excludes the file, or a directory above it. -/
def Excluded (file : Path) : Prop :=
  D.excludeCopy file = true ∨ ∃ directory ∈ D.parents file, D.excludeCopy directory = true

instance (file : Path) : Decidable (D.Excluded file) := inferInstanceAs (Decidable (_ ∨ _))

end DirectorySet

namespace Lifecycle.Exclusion

open Table Lib

/-! ## Decisions -/

/-- What a site decides about a path of the source. -/
inductive Decision where
  /-- The file's backup is `backup`, which is created when there is none. -/
  | mirrored (source backup : Path)
  /-- The callback leaves the file out. -/
  | leftOut (source : Path)
  /-- The directory is made in the backup. -/
  | made (directory : Path)
  deriving DecidableEq

/-- The decision is the callback's, on the path in the source. -/
def Decision.Right (D : DirectorySet) : Decision → Prop
  | .mirrored source _ => D.excludeCopy source = false
  | .leftOut source => D.Excluded source
  | .made directory => D.excludeCopy directory = false

/-- The decision is about a file. -/
def Decision.isFile : Decision → Bool
  | .made _ => false
  | _ => true

/-- What `capture_open` and `prepare_directories_for_backup` decide about a file. The path in
the backup is the one that the callback is asked about. -/
def fileDecisions (D : DirectorySet) (file : Path) : List Decision :=
  match D.translatePrefixOfRealpath file with
  | some backup_file_name =>
    if D.fileIsExcluded backup_file_name then [.leftOut file]
    else .mirrored file backup_file_name :: (D.parents file).map .made
  | none => []

/-- The open files of the session's directories without a destination, after index `i` of
the fd map. -/
def unprepared (s : Lifecycle.State) (D : DirectorySet) (i : Nat) : List Path :=
  (List.range s.mapSize).filterMap fun j =>
    if i < j then
      (s.mapped j).bind fun source =>
        if s.files.dest source = none then (s.files.name source).filter D.isPrefixOfRealpath
        else none
    else none

/-- What the section of the step decides. -/
def decisions (s : Lifecycle.State) (D : DirectorySet) : Lifecycle.Action → List Decision
  | .openCapture fd _ _ =>
    match s.fds fd with
    | some d => if s.names d.path = none then [] else fileDecisions D d.path
    | none => []
  | .prepareNext _ _ =>
    match s.backup with
    | .preparing i =>
      match (s.mapped i).bind s.files.name with
      | some name =>
        if i < s.mapSize then
          -- the loop ends at an excluded file
          fileDecisions D name ++
            if (D.translatePrefixOfRealpath name).any D.fileIsExcluded then
              (unprepared s D i).map .leftOut
            else []
        else []
      | none => []
    | _ => []
  | .unlinkFinish _ _ =>
    match s.fileOp with
    | .unlinkHeld path _ =>
      match s.shouldCaptureUnlink path, D.translatePrefixOfRealpath path with
      | some _, some dest_path => [.mirrored path dest_path]
      | _, _ => []
    | _ => []
  | .renameCapture _ _ _ =>
    match s.fileOp with
    | .renamed old_path new_path =>
      if s.names new_path = none then []
      else
        match D.translatePrefixOfRealpath old_path, D.translatePrefixOfRealpath new_path with
        | some old_dest, some new_dest => [.mirrored old_path old_dest, .mirrored new_path new_dest]
        | _, _ => []
    | _ => []
  | .copierCreate _ =>
    match s.backup with
    | .copying c => if s.names c.src = none then [] else [.mirrored c.src c.dst]
    | _ => []
  | _ => []

/-! ## The machine -/

structure State where
  base : Lifecycle.State
  /-- The decisions, each with the directories of its session. -/
  log : List (DirectorySet × Decision)

def State.record (s : State) (D : DirectorySet) (ds : List Decision) : State :=
  { s with log := s.log ++ ds.map fun d => (D, d) }

inductive Action where
  /-- `copy_full_path` on the regular file `file` of directory `i`. -/
  | copyFile (i : Nat) (file : Path)
  /-- `copy_full_path` on the directory `file` of directory `i`. -/
  | copyDirectory (i : Nat) (file : Path)
  | base (a : Lifecycle.Action)

/-- The source path that `copy_stripped_file` passes to `copy_full_path`. -/
def copyStrippedFile (source file : Path) : Path :=
  if file = ['.'] then source else pathcat source file

section

variable (hash : Path → Nat)

def step (s : State) (a : Action) : Option State :=
  if s.base.fault.isSome then none
  else
    match a with
    | .copyFile i file =>
      match s.base.backup, s.base.session with
      | .running, some D =>
        match D.dirs[i]? with
        | some (source, _) =>
          let src := pathcat source file
          if D.excludeCopy src then some (s.record D [.leftOut src])
          else (Lifecycle.step hash s.base (.copierStart i file)).map fun base => { s with base }
        | none => none
      | _, _ => none
    | .copyDirectory i file =>
      match s.base.backup, s.base.session with
      | .running, some D =>
        match D.dirs[i]? with
        | some (source, _) =>
          let src := copyStrippedFile source file
          some (s.record D [if D.excludeCopy src then .leftOut src else .made src])
        | none => none
      | _, _ => none
    -- the copier gets to a file by `copy_full_path` only
    | .base (.copierStart _ _) => none
    | .base a =>
      (Lifecycle.step hash s.base a).map fun base =>
        match s.base.session with
        | some D => ({ s with base }).record D (decisions s.base D a)
        | none => { s with base }

end

/-! ## The condition -/

/-- For `file`, the callback says the same of the path in the backup as of the path in the
source. -/
def Agrees (D : DirectorySet) (file : Path) : Prop :=
  ∀ b ∈ D.translatePrefixOfRealpath file,
    (D.excludeCopy b = true → D.Excluded file) ∧
      (D.excludeCopy file = true → D.excludeCopy b = true)

/-- The callback agrees on the files that `open` captures and on those that are prepared;
an excluded open file is followed in the fd map by excluded ones only, and no excluded file
is renamed, or a file to an excluded name. -/
def ExclusionOk (s : State) : Action → Prop
  | .base (.openCapture fd _ _) =>
    ∀ d ∈ s.base.fds fd, ∀ D ∈ s.base.session, s.base.names d.path ≠ none → Agrees D d.path
  | .base (.prepareNext _ _) =>
    match s.base.backup with
    | .preparing i =>
      ∀ D ∈ s.base.session, ∀ source ∈ s.base.mapped i, ∀ name ∈ s.base.files.name source,
        i < s.base.mapSize → Agrees D name ∧
          ((D.translatePrefixOfRealpath name).any D.fileIsExcluded = true →
            ∀ other ∈ unprepared s.base D i, D.Excluded other)
    | _ => True
  | .base (.renameCapture _ _ _) =>
    match s.base.fileOp with
    | .renamed old_path new_path =>
      ∀ D ∈ s.base.session, s.base.names new_path ≠ none → D.isPrefixOfRealpath old_path = true →
        D.isPrefixOfRealpath new_path = true →
        D.excludeCopy old_path = false ∧ D.excludeCopy new_path = false
    | _ => True
  | _ => True

/-- The files that `open` captures and those that are prepared lie under no excluded
directory. -/
def ParentsOk (s : State) : Action → Prop
  | .base (.openCapture fd _ _) =>
    ∀ d ∈ s.base.fds fd, ∀ D ∈ s.base.session, s.base.names d.path ≠ none →
      ∀ directory ∈ D.parents d.path, D.excludeCopy directory = false
  | .base (.prepareNext _ _) =>
    match s.base.backup with
    | .preparing i =>
      ∀ D ∈ s.base.session, ∀ source ∈ s.base.mapped i, ∀ name ∈ s.base.files.name source,
        i < s.base.mapSize → ∀ directory ∈ D.parents name, D.excludeCopy directory = false
    | _ => True
  | _ => True

/-! ## Right decisions -/

section

variable {hash : Path → Nat} {s s' : Lifecycle.State} {D : DirectorySet} {file : Path}

theorem fileDecisions_right (h : Agrees D file) {d : Decision} (hd : d ∈ fileDecisions D file)
    (hfile : d.isFile = true) : d.Right D := by
  rw [fileDecisions] at hd
  split at hd
  · rename_i b hb
    split at hd
    · rename_i hexcluded
      rw [List.mem_singleton.mp hd]
      exact (h b hb).1 hexcluded
    · rename_i hexcluded
      rcases List.mem_cons.mp hd with rfl | hd
      · rw [Decision.Right, Bool.eq_false_iff]
        intro hsource
        exact hexcluded ((h b hb).2 hsource)
      · obtain ⟨directory, -, rfl⟩ := List.mem_map.mp hd
        cases hfile
  · cases hd

theorem fileDecisions_made (h : ∀ directory ∈ D.parents file, D.excludeCopy directory = false)
    {d : Decision} (hd : d ∈ fileDecisions D file) (hfile : d.isFile = false) : d.Right D := by
  rw [fileDecisions] at hd
  split at hd
  · split at hd
    · rw [List.mem_singleton.mp hd] at hfile
      cases hfile
    · rcases List.mem_cons.mp hd with rfl | hd
      · cases hfile
      · obtain ⟨directory, hmem, rfl⟩ := List.mem_map.mp hd
        exact h directory hmem
  · cases hd

/-- The copier works on a file that the callback does not exclude. -/
def CopierIncluded (s : Lifecycle.State) : Prop :=
  ∀ c, s.backup = .copying c → ∃ D, s.session = some D ∧ D.excludeCopy c.src = false

/-- In a step that meets the condition, what is decided about files is right. -/
theorem decisions_right {log : List (DirectorySet × Decision)} (hcopier : CopierIncluded s)
    (hsession : s.session = some D) {a : Lifecycle.Action} (hok : ExclusionOk ⟨s, log⟩ (.base a))
    {d : Decision} (hd : d ∈ decisions s D a) (hfile : d.isFile = true) : d.Right D := by
  cases a with
  | openCapture fd opened created =>
    simp only [decisions] at hd
    split at hd
    · rename_i entry hentry
      split at hd
      · cases hd
      · rename_i hname
        exact fileDecisions_right (hok entry hentry D hsession hname) hd hfile
    · cases hd
  | prepareNext opened created =>
    simp only [decisions] at hd
    split at hd
    · rename_i i hi
      simp only [ExclusionOk, hi] at hok
      split at hd
      · rename_i name hname
        obtain ⟨source, hsource, hname⟩ := Option.bind_eq_some_iff.mp hname
        split at hd
        · rename_i hlt
          obtain ⟨hagrees, hothers⟩ := hok D hsession source hsource name hname hlt
          rcases List.mem_append.mp hd with hd | hd
          · exact fileDecisions_right hagrees hd hfile
          · split at hd
            · rename_i hexcluded
              obtain ⟨other, hother, rfl⟩ := List.mem_map.mp hd
              exact hothers hexcluded other hother
            · cases hd
        · cases hd
      · cases hd
    · cases hd
  | unlinkFinish created unlinked =>
    simp only [decisions] at hd
    split at hd
    · split at hd
      · rename_i D' dest_path hcapture _
        obtain ⟨hD', -, -, hexcluded⟩ := State.shouldCaptureUnlink_some hcapture
        rw [hsession] at hD'
        cases hD'
        rw [List.mem_singleton.mp hd]
        exact hexcluded
      · cases hd
    · cases hd
  | renameCapture created renamed enoent =>
    simp only [decisions] at hd
    split at hd
    · rename_i old_path new_path hop
      split at hd
      · cases hd
      · rename_i hname
        split at hd
        · rename_i old_dest new_dest hold hnew
          simp only [ExclusionOk, hop] at hok
          obtain ⟨hsource, htarget⟩ := hok D hsession hname
            (D.prefix_of_translate hold) (D.prefix_of_translate hnew)
          rcases List.mem_cons.mp hd with rfl | hd
          · exact hsource
          · rw [List.mem_singleton.mp hd]
            exact htarget
        · cases hd
    · cases hd
  | copierCreate created =>
    simp only [decisions] at hd
    split at hd
    · rename_i c hc
      split at hd
      · cases hd
      · obtain ⟨D', hD', hexcluded⟩ := hcopier c hc
        rw [hsession] at hD'
        cases hD'
        rw [List.mem_singleton.mp hd]
        exact hexcluded
    · cases hd
  | _ => cases hd

/-- What is decided about directories, when the files lie under no excluded one. -/
theorem decisions_made {log : List (DirectorySet × Decision)} (hsession : s.session = some D)
    {a : Lifecycle.Action} (hok : ParentsOk ⟨s, log⟩ (.base a)) {d : Decision}
    (hd : d ∈ decisions s D a) (hfile : d.isFile = false) : d.Right D := by
  cases a with
  | openCapture fd opened created =>
    simp only [decisions] at hd
    split at hd
    · rename_i entry hentry
      split at hd
      · cases hd
      · rename_i hname
        exact fileDecisions_made (hok entry hentry D hsession hname) hd hfile
    · cases hd
  | prepareNext opened created =>
    simp only [decisions] at hd
    split at hd
    · rename_i i hi
      simp only [ParentsOk, hi] at hok
      split at hd
      · rename_i name hname
        obtain ⟨source, hsource, hname⟩ := Option.bind_eq_some_iff.mp hname
        split at hd
        · rename_i hlt
          rcases List.mem_append.mp hd with hd | hd
          · exact fileDecisions_made (hok D hsession source hsource name hname hlt) hd hfile
          · split at hd
            · obtain ⟨other, -, rfl⟩ := List.mem_map.mp hd
              cases hfile
            · cases hd
        · cases hd
      · cases hd
    · cases hd
  | unlinkFinish created unlinked =>
    simp only [decisions] at hd
    split at hd
    · split at hd
      · rw [List.mem_singleton.mp hd] at hfile
        cases hfile
      · cases hd
    · cases hd
  | renameCapture created renamed enoent =>
    simp only [decisions] at hd
    split at hd
    · split at hd
      · cases hd
      · split at hd
        · rcases List.mem_cons.mp hd with rfl | hd
          · cases hfile
          · rw [List.mem_singleton.mp hd] at hfile
            cases hfile
        · cases hd
    · cases hd
  | copierCreate created =>
    simp only [decisions] at hd
    split at hd
    · split at hd
      · cases hd
      · rw [List.mem_singleton.mp hd] at hfile
        cases hfile
    · cases hd
  | _ => cases hd

/-! ## What is made is decided -/

theorem mem_fileDecisions {b : Path} (hb : D.translatePrefixOfRealpath file = some b)
    (hexcluded : D.fileIsExcluded b = false) : .mirrored file b ∈ fileDecisions D file := by
  rw [fileDecisions, hb]
  dsimp only
  rw [if_neg (by simp [hexcluded])]
  exact List.mem_cons_self

/-- A source file has the path in the backup by a decision of the step. -/
def Decided (s : Lifecycle.State) (a : Lifecycle.Action) (d : DestinationFile) : Prop :=
  ∃ D source, s.session = some D ∧ .mirrored source d.path ∈ decisions s D a

theorem sectionsGrow_decided (hcopier : CopierIncluded s) (a : Lifecycle.Action) :
    SectionsGrow hash s a fun _ => Decided s a where
  opened := by
    intro fd opened created d source D r ha hd _ _ hsession hrun
    refine captureOpen_grows (fun id b hname hb hexcluded => ⟨D, d.path, hsession, ?_⟩) hrun
    subst ha
    simp only [decisions, hd]
    rw [if_neg hname]
    exact mem_fileDecisions hb hexcluded
  unlinked := by
    intro created unlinked path source r ha hop _ hrun
    refine unlinkSection_grows (fun id D b hcapture hb => ?_) hrun
    refine ⟨D, path, (State.shouldCaptureUnlink_some hcapture).1, ?_⟩
    subst ha
    simp only [decisions, hop, hcapture, hb]
    exact List.mem_singleton_self _
  renamed := by
    intro created renamed enoent old_path new_path D o r ha hop _ hsession ho hrun
    refine captureRename_grows (fun q id old_dest new_dest hrealpath hold hnew => ?_) hrun
    have hname : s.names new_path ≠ none := by
      intro hnone
      rw [ho, if_pos hnone] at hrealpath
      exact hrealpath rfl
    subst ha
    constructor
    · refine ⟨D, old_path, hsession, ?_⟩
      simp only [decisions, hop, hold, hnew]
      rw [if_neg hname]
      exact List.mem_cons_self
    · refine ⟨D, new_path, hsession, ?_⟩
      simp only [decisions, hop, hold, hnew]
      rw [if_neg hname]
      exact List.mem_cons_of_mem _ (List.mem_singleton_self _)
  prepared := by
    intro opened created i source D r ha hi hlt hmapped hsession hrun
    refine prepare_grows (fun id name b hname hb hexcluded => ⟨D, name, hsession, ?_⟩) hrun
    subst ha
    simp only [decisions, hi, hmapped, Option.bind_some, hname]
    rw [if_pos hlt]
    exact List.mem_append_left _ (mem_fileDecisions hb hexcluded)
  copied := by
    intro created c r ha hc hrun
    obtain ⟨D, hsession, -⟩ := hcopier c hc
    refine createDestination_grows (fun id hname => ⟨D, c.src, hsession, ?_⟩) hrun
    subst ha
    simp only [decisions, hc]
    rw [if_neg hname]
    exact List.mem_singleton_self _

/-- The copier stays at an included file, and gets to included files only. -/
theorem copierIncluded_step (h : CopierIncluded s) {a : Lifecycle.Action}
    (hstart : ∀ i file D source destination, a = .copierStart i file → s.session = some D →
      D.dirs[i]? = some (source, destination) → D.excludeCopy (pathcat source file) = false)
    (hstep : Lifecycle.step hash s a = some s') : CopierIncluded s' := by
  intro c' hc'
  obtain ⟨hsession, hfrom⟩ := (step_from hstep).2 c' hc'
  rw [hsession]
  cases hfrom with
  | stays c hc hsrc _ _ =>
    rw [hsrc]
    exact h c hc
  | starts i file source destination D ha hD hdir hsrc _ _ =>
    rw [hsrc]
    exact ⟨D, hD, hstart i file D source destination ha hD hdir⟩

end

/-! ## Runs -/

section

variable {hash : Path → Nat} {s s' : State}

/-- Each destination has its path by a decision of the log. -/
def Logged (s : State) : Prop :=
  ∀ p d, s.base.files.dest p = some d → ∃ D source, (D, .mirrored source d.path) ∈ s.log

/-- What is decided about files is right. -/
def FilesRight (s : State) : Prop := ∀ D d, (D, d) ∈ s.log → d.isFile = true → d.Right D

def DirectoriesRight (s : State) : Prop := ∀ D d, (D, d) ∈ s.log → d.isFile = false → d.Right D

structure Inv (s : State) : Prop where
  copier : CopierIncluded s.base
  logged : Logged s
  files : FilesRight s

/-- A step of the machine: the copier leaves out a path or makes a directory, the copier gets
to a file that is not excluded, or a step is decided as `decisions` says. -/
theorem step_cases {a : Action} (hstep : step hash s a = some s') :
    ((∀ b, a ≠ .base b) ∧ ∃ D d, s' = s.record D [d] ∧ d.Right D) ∨
    ((∀ b, a ≠ .base b) ∧ ∃ i file base D, s' = { s with base } ∧
      Lifecycle.step hash s.base (.copierStart i file) = some base ∧ s.base.session = some D ∧
      ∀ source destination, D.dirs[i]? = some (source, destination) →
        D.excludeCopy (pathcat source file) = false) ∨
    ∃ b base, a = .base b ∧ (∀ i file, b ≠ .copierStart i file) ∧
      Lifecycle.step hash s.base b = some base ∧
      ((s.base.session = none ∧ s' = { s with base }) ∨
        ∃ D, s.base.session = some D ∧
          s' = ({ s with base } : State).record D (decisions s.base D b)) := by
  unfold step at hstep
  split at hstep
  · cases hstep
  cases a with
  | copyFile i file =>
    dsimp only at hstep
    split at hstep
    · rename_i D hrunning hsession
      split at hstep
      · rename_i source destination hdir
        split at hstep
        · rename_i hexcluded
          cases hstep
          exact Or.inl ⟨by simp, D, .leftOut _, rfl, Or.inl hexcluded⟩
        · rename_i hincluded
          obtain ⟨base, hbase, rfl⟩ := Option.map_eq_some_iff.mp hstep
          refine Or.inr (Or.inl ⟨by simp, i, file, base, D, rfl, hbase, hsession, ?_⟩)
          intro source' destination' hdir'
          rw [hdir] at hdir'
          cases hdir'
          simpa using hincluded
      · cases hstep
    · cases hstep
  | copyDirectory i file =>
    dsimp only at hstep
    split at hstep
    · rename_i D hrunning hsession
      split at hstep
      · rename_i source destination hdir
        cases hstep
        refine Or.inl ⟨by simp, D, _, rfl, ?_⟩
        split
        · rename_i hexcluded
          exact Or.inl hexcluded
        · rename_i hincluded
          simpa [Decision.Right] using hincluded
      · cases hstep
    · cases hstep
  | base b =>
    refine Or.inr (Or.inr ⟨b, ?_⟩)
    have hstart : ∀ i file, b ≠ .copierStart i file := by
      rintro i file rfl
      cases hstep
    have hstep : (Lifecycle.step hash s.base b).map (fun base =>
        match s.base.session with
        | some D => ({ s with base } : State).record D (decisions s.base D b)
        | none => { s with base }) = some s' := by
      cases b with
      | copierStart i file => cases hstep
      | _ => exact hstep
    obtain ⟨base, hbase, hs'⟩ := Option.map_eq_some_iff.mp hstep
    refine ⟨base, rfl, hstart, hbase, ?_⟩
    split at hs'
    · rename_i D hsession
      exact Or.inr ⟨D, hsession, hs'.symm⟩
    · rename_i hsession
      exact Or.inl ⟨hsession, hs'.symm⟩

theorem mem_record {D D' : DirectorySet} {ds : List Decision} {d : Decision} :
    (D', d) ∈ (s.record D ds).log ↔ (D', d) ∈ s.log ∨ D' = D ∧ d ∈ ds := by
  rw [State.record, List.mem_append, List.mem_map]
  constructor
  · rintro (hold | ⟨d', hd', heq⟩)
    · exact Or.inl hold
    · cases heq
      exact Or.inr ⟨rfl, hd'⟩
  · rintro (hold | ⟨rfl, hd⟩)
    · exact Or.inl hold
    · exact Or.inr ⟨d, hd, rfl⟩

theorem Logged.grows (h : Logged s) {a : Lifecycle.Action}
    (hgrows : Grows (fun _ => Decided s.base a) s.base.files s'.base.files)
    (hlog : ∀ x ∈ s.log, x ∈ s'.log)
    (hnew : ∀ D d, s.base.session = some D → d ∈ decisions s.base D a → (D, d) ∈ s'.log) :
    Logged s' := by
  intro p d hd
  rcases hgrows p d hd with hold | ⟨D, source, hsession, hmem⟩
  · obtain ⟨D, source, hmem⟩ := h p d hold
    exact ⟨D, source, hlog _ hmem⟩
  · exact ⟨D, source, hnew D _ hsession hmem⟩

theorem inv_step {a : Action} (h : Inv s) (hok : ExclusionOk s a)
    (hstep : step hash s a = some s') :
    Inv s' := by
  obtain ⟨-, D, d, rfl, hright⟩ | ⟨-, i, file, base, D, rfl, hbase, hsession, hincluded⟩ |
    ⟨b, base, rfl, hstart, hbase, hlog⟩ := step_cases hstep
  · refine ⟨h.copier, fun p x hx => ?_, fun D' d' hd' hfile => ?_⟩
    · obtain ⟨D', source, hmem⟩ := h.logged p x hx
      exact ⟨D', source, mem_record.mpr (Or.inl hmem)⟩
    · rcases mem_record.mp hd' with hold | ⟨rfl, hnew⟩
      · exact h.files D' d' hold hfile
      · rw [List.mem_singleton.mp hnew]
        exact hright
  · have hgrows := step_grows (sectionsGrow_decided h.copier _) hbase
    refine ⟨copierIncluded_step h.copier ?_ hbase, h.logged.grows hgrows (fun _ hx => hx) ?_,
      h.files⟩
    · intro i' file' D' source destination ha hD' hdir
      cases ha
      rw [hsession] at hD'
      cases hD'
      exact hincluded source destination hdir
    · intro D' d hD' hd
      cases hd
  · have hgrows := step_grows (sectionsGrow_decided h.copier b) hbase
    have hcopier : CopierIncluded base :=
      copierIncluded_step h.copier (fun i file _ _ _ ha => absurd ha (hstart i file)) hbase
    obtain ⟨hnone, rfl⟩ | ⟨D, hsession, rfl⟩ := hlog
    · refine ⟨hcopier, h.logged.grows hgrows (fun _ hx => hx) ?_, h.files⟩
      intro D d hsession
      rw [hnone] at hsession
      cases hsession
    · refine ⟨hcopier, h.logged.grows hgrows (fun x hx => ?_) fun D' d hD' hd => ?_,
        fun D' d hd hfile => ?_⟩
      · exact mem_record.mpr (Or.inl hx)
      · rw [hsession] at hD'
        cases hD'
        exact mem_record.mpr (Or.inr ⟨rfl, hd⟩)
      · rcases mem_record.mp hd with hold | ⟨rfl, hnew⟩
        · exact h.files D' d hold hfile
        · exact decisions_right h.copier hsession hok hnew hfile

theorem directoriesRight_step {a : Action} (h : DirectoriesRight s) (hok : ParentsOk s a)
    (hstep : step hash s a = some s') : DirectoriesRight s' := by
  obtain ⟨-, D, d, rfl, hright⟩ | ⟨-, i, file, base, D, rfl, -⟩ | ⟨b, base, rfl, -, -, hlog⟩ :=
    step_cases hstep
  · intro D' d' hd' hfile
    rcases mem_record.mp hd' with hold | ⟨rfl, hnew⟩
    · exact h D' d' hold hfile
    · rw [List.mem_singleton.mp hnew]
      exact hright
  · exact h
  · obtain ⟨-, rfl⟩ | ⟨D, hsession, rfl⟩ := hlog
    · exact h
    · intro D' d hd hfile
      rcases mem_record.mp hd with hold | ⟨rfl, hnew⟩
      · exact h D' d hold hfile
      · exact decisions_made hsession hok hnew hfile

/-! ## What is not excluded is mirrored -/

/-- The file has a destination, or is unlinked. -/
def HasDestination (F : Files) (source : Ptr) : Prop :=
  ∃ f, F.heap source = some f ∧ (f.unlinked = true ∨ f.destinationFile.isSome = true)

/-- When the calls on the backup's side succeed, the section of the step gives the file that
it is about a destination, and the copier turns to the file, if the callback does not exclude
it or a directory above it. -/
def Mirrors (s : State) (a : Action) (s' : State) : Prop :=
  match a with
  | .copyFile i file =>
    ∀ D source destination, s.base.session = some D → D.dirs[i]? = some (source, destination) →
      ¬ D.Excluded (pathcat source file) →
      ∃ c, s'.base.backup = .copying c ∧ c.src = pathcat source file ∧
        c.dst = pathcat destination file
  | .base (.openCapture fd true true) =>
    ∀ D d source, s.base.session = some D → s.base.fds fd = some d → d.stage = .published source →
      s.base.names d.path ≠ none → D.isPrefixOfRealpath d.path = true → ¬ D.Excluded d.path →
      HasDestination s'.base.files source
  | .base (.prepareNext true true) =>
    ∀ D i source name, s.base.session = some D → s.base.backup = .preparing i →
      i < s.base.mapSize → s.base.mapped i = some source →
      s.base.files.name source = some name → D.isPrefixOfRealpath name = true →
      ¬ D.Excluded name →
      HasDestination s'.base.files source ∧ s'.base.backup = .preparing (i + 1)
  | _ => True

theorem tryToCreateDestinationFile_mirrors {F F' : Files} {source : Ptr} {path : Path} {b : Bool}
    (h : F.tryToCreateDestinationFile source path true = .ok (b, F')) :
    HasDestination F' source ∧ b = true := by
  obtain ⟨f, hf, -, -, ⟨rfl, hkept, hfailed⟩ | ⟨rfl, -, -, -, hheap⟩⟩ :=
    Files.tryToCreateDestinationFile_heap h
  · cases b with
    | false => exact absurd (hfailed rfl).1 (by simp)
    | true => exact ⟨⟨f, hf, hkept rfl⟩, rfl⟩
  · refine ⟨⟨{ f with destinationFile := some ⟨F.freshDestination, path⟩ }, ?_, Or.inr rfl⟩, rfl⟩
    rw [hheap, Function.update_self]

theorem agrees_included {D : DirectorySet} {file b : Path} (h : Agrees D file)
    (hincluded : ¬ D.Excluded file) (hb : D.translatePrefixOfRealpath file = some b) :
    D.fileIsExcluded b = false := by
  rw [DirectorySet.fileIsExcluded, Bool.eq_false_iff]
  intro hexcluded
  exact hincluded ((h b hb).1 hexcluded)

theorem captureOpen_mirrors {b : Lifecycle.State} {D : DirectorySet} {path : Path} {source : Ptr}
    {r : Files × Bool} (hname : b.names path ≠ none) (hinside : D.isPrefixOfRealpath path = true)
    (hagrees : Agrees D path) (hincluded : ¬ D.Excluded path)
    (h : captureOpen b D path source true true = .ok r) : HasDestination r.1 source := by
  obtain ⟨dest, hdest⟩ := D.translate_of_prefix hinside
  have hexcluded := agrees_included hagrees hincluded hdest
  rw [captureOpen, if_neg hname, if_neg (by simp [hinside]), hdest, demand_some, ok_bind,
    if_neg (by simp [hexcluded]), if_neg (by simp)] at h
  obtain ⟨⟨ok, F⟩, hcreate, h⟩ := bind_eq_ok.mp h
  cases h
  exact (tryToCreateDestinationFile_mirrors hcreate).1

theorem prepare_mirrors {b : Lifecycle.State} {D : DirectorySet} {name : Path} {source : Ptr}
    {r : Files × PrepareResult} (hname : b.files.name source = some name)
    (hinside : D.isPrefixOfRealpath name = true) (hagrees : Agrees D name)
    (hincluded : ¬ D.Excluded name) (h : prepare b D source true true = .ok r) :
    HasDestination r.1 source ∧ r.2 = .next := by
  obtain ⟨dest, hdest⟩ := D.translate_of_prefix hinside
  have hexcluded := agrees_included hagrees hincluded hdest
  rw [prepare, hname, demand_some, ok_bind, if_neg (by simp [hinside]), hdest, demand_some, ok_bind,
    if_neg (by simp [hexcluded]), if_neg (by simp)] at h
  obtain ⟨⟨ok, F⟩, hcreate, h⟩ := bind_eq_ok.mp h
  cases h
  obtain ⟨hdestination, rfl⟩ := tryToCreateDestinationFile_mirrors hcreate
  exact ⟨hdestination, rfl⟩

theorem step_mirrors {a : Action} (hok : ExclusionOk s a) (hstep : step hash s a = some s')
    (hfault : s'.base.fault = none) : Mirrors s a s' := by
  have hbase : ∀ b, a = .base b → Lifecycle.step hash s.base b = some s'.base := by
    rintro b rfl
    obtain ⟨hne, -⟩ | ⟨hne, -⟩ | ⟨b, base, hb, -, hbase, hlog⟩ := step_cases hstep
    · exact absurd rfl (hne b)
    · exact absurd rfl (hne b)
    · cases hb
      obtain ⟨-, rfl⟩ | ⟨D, -, rfl⟩ := hlog
      · exact hbase
      · exact hbase
  cases a with
  | copyFile i file =>
    intro D source destination hsession hdir hincluded
    unfold step at hstep
    split at hstep
    · cases hstep
    simp only [hsession] at hstep
    split at hstep
    · rename_i D' hrunning hD'
      cases hD'
      simp only [hdir] at hstep
      rw [if_neg fun hexcluded => hincluded (Or.inl hexcluded)] at hstep
      obtain ⟨base, hcopy, rfl⟩ := Option.map_eq_some_iff.mp hstep
      unfold Lifecycle.step at hcopy
      split at hcopy
      · cases hcopy
      · simp only [stepBackup, hrunning, hsession, hdir] at hcopy
        obtain ⟨e, rfl⟩ | ⟨⟨p, F⟩, -, rfl⟩ := State.attempt_cases hcopy
        · cases hfault
        · exact ⟨_, rfl, rfl, rfl⟩
    · cases hstep
  | copyDirectory i file => trivial
  | base b =>
    have hbase := hbase b rfl
    unfold Lifecycle.step at hbase
    split at hbase
    · cases hbase
    cases b with
    | openCapture fd opened created =>
      cases opened with
      | false => trivial
      | true =>
        cases created with
        | false => trivial
        | true =>
          intro D d source hsession hd hstage hname hinside hincluded
          simp only [stepOpen, hd, hstage, hsession] at hbase
          split at hbase
          · cases hbase
          · obtain ⟨e, hs'⟩ | ⟨r, hrun, hs'⟩ := State.attempt_cases hbase
            · rw [hs'] at hfault
              cases hfault
            · rw [hs']
              exact captureOpen_mirrors hname hinside (hok d hd D hsession hname) hincluded hrun
    | prepareNext opened created =>
      cases opened with
      | false => trivial
      | true =>
        cases created with
        | false => trivial
        | true =>
          intro D i source name hsession hi hlt hmapped hname hinside hincluded
          simp only [stepBackup, hi, hsession, hmapped] at hbase
          rw [if_pos hlt] at hbase
          simp only [ExclusionOk, hi] at hok
          obtain ⟨hagrees, -⟩ := hok D hsession source hmapped name hname hlt
          obtain ⟨e, hs'⟩ | ⟨⟨F, result⟩, hrun, hs'⟩ := State.attempt_cases hbase
          · rw [hs'] at hfault
            cases hfault
          · obtain ⟨hdestination, hnext⟩ :=
              prepare_mirrors hname hinside hagrees hincluded hrun
            have hnext : result = .next := hnext
            subst hnext
            rw [hs']
            exact ⟨hdestination, rfl⟩
    | _ => trivial

/-- In a run whose steps meet the condition, every site decides as the callback says of the
file's path in the source: what has a destination is a file that the callback does not
exclude, and what it leaves out it excludes, by itself or by a directory above it. The
directories made are not excluded either, if no captured file lies under an excluded one. -/
theorem exclusion_decided_once (hash : Path → Nat) {s₀ : Lifecycle.State}
    (hinit : Initial s₀) {as : List Action}
    (hok : RunOk (step hash) ExclusionOk ⟨s₀, []⟩ as)
    (hrun : run (step hash) ⟨s₀, []⟩ as = some s) :
    FilesRight s ∧
      (∀ p d, s.base.files.dest p = some d →
        ∃ D source, (D, .mirrored source d.path) ∈ s.log ∧ D.excludeCopy source = false) ∧
      (∀ a s', ExclusionOk s a → step hash s a = some s' → s'.base.fault = none → Mirrors s a s') ∧
      (RunOk (step hash) ParentsOk ⟨s₀, []⟩ as → DirectoriesRight s) := by
  have hinv : Inv ⟨s₀, []⟩ := by
    refine ⟨fun c hc => ?_, fun p d hd => ?_, fun D d hd => by cases hd⟩
    · have hc : s₀.backup = .copying c := hc
      rw [hinit.backup] at hc
      cases hc
    · have hd : s₀.files.dest p = some d := hd
      rw [hinit.files] at hd
      cases hd
  have hend : Inv s := run_invariant (fun s a s' => inv_step) hinv hok hrun
  refine ⟨hend.files, fun p d hd => ?_, fun a s' => step_mirrors, fun hparents => ?_⟩
  · obtain ⟨D, source, hmem⟩ := hend.logged p d hd
    exact ⟨D, source, hmem, hend.files D _ hmem rfl⟩
  · refine run_invariant (fun s a s' => directoriesRight_step) ?_ hparents hrun
    intro D d hd
    cases hd

end

/-! ## Examples -/

instance decidableAgrees (D : DirectorySet) (file : Path) : Decidable (Agrees D file) :=
  inferInstanceAs (Decidable (∀ b ∈ D.translatePrefixOfRealpath file, _))

instance decidableExclusionOk (s : State) (a : Action) : Decidable (ExclusionOk s a) := by
  apply @Action.casesOn (fun a => Decidable (ExclusionOk s a)) a
  case base =>
    intro a
    apply @Lifecycle.Action.casesOn (fun a => Decidable (ExclusionOk s (.base a))) a
    case openCapture =>
      intro fd opened created
      unfold ExclusionOk
      infer_instance
    case prepareNext =>
      intro opened created
      unfold ExclusionOk
      dsimp only
      split
      · infer_instance
      · infer_instance
    case renameCapture =>
      intro created renamed enoent
      unfold ExclusionOk
      dsimp only
      split
      · infer_instance
      · infer_instance
    all_goals
      intros
      exact isTrue trivial
  all_goals
    intros
    exact isTrue trivial

/-- Names that end in `b` are excluded, in the source and in the backup. -/
def withoutB : DirectorySet :=
  ⟨[(['/', 's'], ['/', 'd'])], fun p => decide (p.getLast? = some 'b')⟩

/-- The copier leaves out one file and copies another, which is opened meanwhile. -/
def oneLeftOut : List Action :=
  [.base (.startSession withoutB), .base (.prepareNext true true), .copyDirectory 0 ['.'],
    .copyFile 0 ['/', 'b'], .copyFile 0 ['/', 'a'], .base (.copierOpen true),
    .base (.copierCreate true), .base (.openReal 0 ['/', 's', '/', 'a'] false),
    .base (.openAttach 0), .base (.openPublish 0), .base (.openCapture 0 true true)]

theorem exclusion_decided_once_oneLeftOut :
    ∃ s, run (step List.length) ⟨start true, []⟩ oneLeftOut = some s ∧ FilesRight s ∧
      (withoutB, .leftOut ['/', 's', '/', 'b']) ∈ s.log ∧
      ∃ D source, (D, .mirrored source ['/', 'd', '/', 'a']) ∈ s.log ∧
        D.excludeCopy source = false := by
  have hok : RunOk (step List.length) ExclusionOk ⟨start true, []⟩ oneLeftOut := by
    decide +kernel
  have hrun : ∃ s, run (step List.length) ⟨start true, []⟩ oneLeftOut = some s ∧
      s.log[1]? = some (withoutB, .leftOut ['/', 's', '/', 'b']) ∧
      s.base.files.dest 0 = some ⟨0, ['/', 'd', '/', 'a']⟩ := ⟨_, rfl, rfl, rfl⟩
  obtain ⟨s, hrun, hlog, hdest⟩ := hrun
  obtain ⟨hfiles, hmade, -⟩ := exclusion_decided_once List.length (initial_start true) hok hrun
  exact ⟨s, hrun, hfiles, List.mem_of_getElem? hlog, hmade 0 _ hdest⟩

/-- The callback excludes one path of the source. -/
def withoutSA : DirectorySet :=
  ⟨[(['/', 's'], ['/', 'd'])], fun p => decide (p = ['/', 's', '/', 'a'])⟩

/-- The file with this path is opened during a backup. -/
def excludedOpened : List Action :=
  [.base (.startSession withoutSA), .base (.prepareNext true true),
    .base (.openReal 0 ['/', 's', '/', 'a'] false), .base (.openAttach 0), .base (.openPublish 0),
    .base (.openCapture 0 true true)]

/-- The callback is asked about the path in the backup, which it does not exclude. -/
theorem not_exclusion_decided_once_excludedOpened :
    ¬ ∀ hash s₀ as s, Initial s₀ → run (step hash) ⟨s₀, []⟩ as = some s → FilesRight s := by
  intro h
  have hrun : ∃ s, run (step List.length) ⟨start true, []⟩ excludedOpened = some s ∧
      s.log[0]? = some (withoutSA, .mirrored ['/', 's', '/', 'a'] ['/', 'd', '/', 'a']) :=
    ⟨_, rfl, rfl⟩
  obtain ⟨s, hrun, hlog⟩ := hrun
  have hright := h List.length (start true) excludedOpened s (initial_start true) hrun _ _
    (List.mem_of_getElem? hlog) rfl
  simp [Decision.Right, withoutSA] at hright

end Lifecycle.Exclusion

end TokuBackup
