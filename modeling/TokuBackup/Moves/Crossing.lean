import TokuBackup.Moves.Copies

/-!
# Moves across the boundary of the backup

`capture_rename` does nothing when only one of the two paths is in a source directory. A file
that has moved out keeps the copy it had; a file that has moved in is copied when the copier
comes across it under its new name.
-/

namespace TokuBackup.Moves

open Kernel Lib

/-- One of the two paths is in no source directory. -/
def Crosses (D : DirectorySet) (old new : Path) : Prop :=
  D.isPrefixOfRealpath old = false ∨ D.isPrefixOfRealpath new = false

/-- The session as the copier finds it. What is in the backup are directories and empty files,
apart from each other, and a destination that a source file has is at its path. -/
structure Begins (s : State) : Prop where
  pc : s.pc = .next
  index : s.index = 0
  todo : s.todo = []
  mover : s.mover = .idle
  consistent : Consistent s
  linked : ∀ id n dst, Holds s id n dst → s.backup dst.path = some (.file dst.inode)
  fresh : ∀ l i, s.backup l = some (.file i) → i < s.inodes
  single : ∀ l l' i, s.backup l = some (.file i) → s.backup l' = some (.file i) → l = l'
  empty : ∀ l i, s.backup l = some (.file i) → s.data i = .empty

section

variable {D : DirectorySet} {old new : Path} {s s' : State} {a : Action}

theorem Captures.not_crosses {oldDest newDest : List Path}
    (h : Captures D old new oldDest newDest) :
    ¬ Crosses D old new := by
  obtain ⟨p, q, hp, hq, -⟩ := h
  rintro (hout | hout)
  · rw [D.prefix_of_translate hp] at hout
    cases hout
  · rw [D.prefix_of_translate hq] at hout
    cases hout

/-- Nothing is pushed after a move across the boundary. -/
theorem Advance.not_pushing (h : Advance D old new s a s') (hcross : Crosses D old new)
    (hcapture : a = .capture) (entry : List Path) : s'.mover ≠ .pushing entry := by
  subst hcapture
  cases h with
  | ignore => simp
  | refuseOld _ _ hcapt => exact absurd hcross hcapt.not_crosses
  | refuseNew _ _ hcapt => exact absurd hcross hcapt.not_crosses
  | moveOld _ _ hcapt => exact absurd hcross hcapt.not_crosses
  | moveNew _ _ hcapt => exact absurd hcross hcapt.not_crosses

/-- The file table stays consistent after a move across the boundary. -/
theorem Consistent.crossing (hC : Consistent s) (h : Advance D old new s a s')
    (hcross : Crosses D old new) (hne : components old ≠ components new) : Consistent s' := by
  refine hC.advance h hne fun hcapture hpush => ?_
  obtain ⟨entry, hentry⟩ := hpush
  exact absurd hentry (h.not_pushing hcross hcapture entry)

end

/-! ## A file that moves out -/

/-- The entry that is open, with its source file. -/
def Pc.opens : Pc → Option (List Path × Nat)
  | .opened rel file _ => some (rel, file)
  | _ => none

section

variable {D : DirectorySet} {old new : Path} {s s' : State} {a : Action} {dest : List Path}

theorem Provides.backup_ne {file : SourceFile} {k : List Path} {s₁ : State} {dst : DestinationFile}
    (h : Provides s file k s₁ dst) {l : List Path} (hl : l ≠ k) : s₁.backup l = s.backup l := by
  obtain ⟨-, rfl⟩ | ⟨-, inode, hopen, -⟩ := h
  · rfl
  · obtain ⟨-, rfl⟩ | ⟨-, -, rfl⟩ := openCreate_cases hopen
    · rfl
    · exact Function.update_of_ne hl _ _

/-- Only the creation of a copy puts a file where there is none. -/
theorem Advance.no_file (h : Advance D old new s a s') (hcross : Crosses D old new)
    (hcreate : a ≠ .create) (hnone : ∀ inode, s.backup dest ≠ some (.file inode)) (inode : Nat) :
    s'.backup dest ≠ some (.file inode) := by
  cases h with
  | scanNew hpc htodo hd hnode hnew =>
    change Function.update s.backup _ (some Entry.directory) dest ≠ _
    rw [Function.update_apply]
    split
    · simp
    · exact hnone inode
  | createGone => exact absurd rfl hcreate
  | create => exact absurd rfl hcreate
  | refuseOld _ _ hcapt => exact absurd hcross hcapt.not_crosses
  | refuseNew _ _ hcapt => exact absurd hcross hcapt.not_crosses
  | moveOld _ _ hcapt => exact absurd hcross hcapt.not_crosses
  | moveNew _ _ hcapt => exact absurd hcross hcapt.not_crosses
  | _ => exact hnone inode

end

/-! ## A file that moves in -/

/-- The step lets the copier come across the file that has moved in. It does not take what is
copied to `k` off the list before the move, and the listing of the directory returns the new
name. -/
def ComesAcross (D : DirectorySet) (j : Nat) (front : List Path) (n : Path) (k : List Path)
    (s : State) : Action → Prop
  | .pop => ∀ l ∈ s.todo.head?, ∀ d ∈ D.dirs[s.index]?, components d.2 ++ l = k → s.mover ≠ .idle
  | .list entries => s.pc.scans = some front → s.index = j → n ∈ entries
  | _ => True

/-- What the copier is about to write to `k` is the file that has moved in, and no byte has been
written there: its source file has no other destination than one at `k`, into which nothing has
been copied, nor is the destination at `k` used for another entry. -/
def CreatesIn (D : DirectorySet) (new : Path) (k : List Path) (s : State) : Prop :=
  ∀ x ∈ s.pc.opens, ∀ d ∈ D.dirs[s.index]?, ∀ file ∈ s.heap x.2,
    (components d.2 ++ x.1 = k ∨ ∃ dst ∈ file.destination, dst.path = k) →
      components d.1 ++ x.1 = components new ∧ components d.2 ++ x.1 = k ∧
        ∀ dst ∈ file.destination, dst.path = k ∧ dst.offset = 0

/-- The file that moves, with its content `c`. -/
structure Tracked (D : DirectorySet) (old new : Path) (c : Content) (k : List Path) (s : State) :
    Prop where
  before : s.mover = .idle → s.fs.node (components old) = some (.regular c)
  after : s.mover ≠ .idle → s.fs.node (components new) = some (.regular c)
  reading : ∀ l d, s.pc.reads = some l → D.dirs[s.index]? = some d → components d.2 ++ l = k →
    s.mover ≠ .idle
  content : ∀ l id content d, s.pc = .opened l id content → D.dirs[s.index]? = some d →
    components d.2 ++ l = k → components d.1 ++ l = components new → content = c

/-- The destinations are at their paths. -/
def Linked (s : State) : Prop :=
  ∀ id n dst, Holds s id n dst → s.backup dst.path = some (.file dst.inode)

section

variable {D : DirectorySet} {old new : Path} {s s' : State} {a : Action} {c : Content}
  {k : List Path}

/-- The copier goes on with what it has, or leaves it. -/
theorem Tracked.same (hT : Tracked D old new c k s) (hfs : s'.fs = s.fs)
    (hmover : s'.mover = .idle ↔ s.mover = .idle)
    (hreads : ∀ l, s'.pc.reads = some l → s.pc.reads = some l ∧ s'.index = s.index)
    (hopened : ∀ l id content, s'.pc = .opened l id content → s.pc = .opened l id content) :
    Tracked D old new c k s' where
  before := by
    rw [hmover, hfs]
    exact hT.before
  after := by
    rw [Ne, hmover, hfs]
    exact hT.after
  reading l d hl hd hk := by
    obtain ⟨hl', hindex⟩ := hreads l hl
    rw [Ne, hmover]
    exact hT.reading l d hl' (hindex ▸ hd) hk
  content l id content d hpc' hd hk hname := by
    have hindex := (hreads l (by rw [hpc']; rfl)).2
    exact hT.content l id content d (hopened l id content hpc') (hindex ▸ hd) hk hname

/-- The copier has no entry. -/
theorem Tracked.past (hT : Tracked D old new c k s) (hfs : s'.fs = s.fs)
    (hmover : s'.mover = .idle ↔ s.mover = .idle) (hreads : s'.pc.reads = none) :
    Tracked D old new c k s' := by
  refine hT.same hfs hmover (fun l hl => ?_) fun l id content hpc => ?_
  · rw [hreads] at hl
    cases hl
  · rw [hpc] at hreads
    cases hreads

theorem Tracked.advance {j : Nat} {front : List Path} {n : Path} (hT : Tracked D old new c k s)
    (h : Advance D old new s a s') (hcross : Crosses D old new)
    (hok : ComesAcross D j front n k s a) : Tracked D old new c k s' := by
  cases h with
  | startDirectory => exact hT.past rfl Iff.rfl rfl
  | finish => exact hT.past rfl Iff.rfl rfl
  | endDirectory => exact hT.past rfl Iff.rfl rfl
  | exclude => exact hT.past rfl Iff.rfl rfl
  | vanish => exact hT.past rfl Iff.rfl rfl
  | find hpc htodo hd hnode =>
    refine ⟨hT.before, hT.after, fun l d hl hd hk => ?_, fun l id content d hpc => ?_⟩
    · cases hl
      exact hok _ (by rw [htodo]; rfl) d hd hk
    · cases hpc
  | scanOld => exact hT.past rfl Iff.rfl rfl
  | scanNew => exact hT.past rfl Iff.rfl rfl
  | list => exact hT.past rfl Iff.rfl rfl
  | attachOld hpc =>
    refine hT.same rfl Iff.rfl (fun l hl => ?_) (by simp)
    rw [hpc]
    exact ⟨hl, rfl⟩
  | attachNew hpc =>
    refine hT.same rfl Iff.rfl (fun l hl => ?_) (by simp)
    rw [hpc]
    exact ⟨hl, rfl⟩
  | @openFile rel id d content hpc hd hnode =>
    have hreads : s.pc.reads = some rel := by rw [hpc]; rfl
    refine ⟨hT.before, hT.after, fun l d' hl hd' hk => ?_,
      fun l id' content' d' hpc' hd' hk hname => ?_⟩
    · cases hl
      exact hT.reading rel d' hreads hd' hk
    · cases hpc'
      have hmoved := hT.reading rel d' hreads hd' hk
      have hd' : D.dirs[s.index]? = some d' := hd'
      rw [hd] at hd'
      cases hd'
      rw [hname, hT.after hmoved] at hnode
      cases hnode
      rfl
  | openGone => exact hT.past rfl Iff.rfl rfl
  | createGone => exact hT.past rfl Iff.rfl rfl
  | create _ _ _ _ hprov =>
    exact hT.past hprov.only.fs (iff_of_eq (congrArg (· = Mover.idle) hprov.only.mover)) rfl
  | endOfFile => exact hT.past rfl Iff.rfl rfl
  | copyChunk => exact hT.past rfl Iff.rfl rfl
  | unhookShared => exact hT.past rfl Iff.rfl rfl
  | unhook => exact hT.past rfl Iff.rfl rfl
  | releaseShared => exact hT.past rfl Iff.rfl rfl
  | releaseLast => exact hT.past rfl Iff.rfl rfl
  | @rename fs _ hmover hfs =>
    obtain ⟨content, hold, -, hnode⟩ := Fs.renameFile_some hfs
    refine ⟨fun hidle => ?_, fun _ => ?_, fun l d _ _ _ => ?_, hT.content⟩
    · cases hidle
    · rw [hT.before hmover] at hold
      cases hold
      exact (hnode _).trans (if_pos rfl)
    · simp
  | ignore _ hmover =>
    exact hT.same rfl (by rw [hmover]; simp) (fun l hl => ⟨hl, rfl⟩) fun _ _ _ h => h
  | refuseOld _ _ hcapt => exact absurd hcross hcapt.not_crosses
  | refuseNew _ _ hcapt => exact absurd hcross hcapt.not_crosses
  | moveOld _ _ hcapt => exact absurd hcross hcapt.not_crosses
  | moveNew _ _ hcapt => exact absurd hcross hcapt.not_crosses
  | push hmover =>
    exact hT.same rfl (by rw [hmover]; simp) (fun l hl => ⟨hl, rfl⟩) fun _ _ _ h => h
  | endSession => exact hT.same rfl Iff.rfl (fun l hl => ⟨hl, rfl⟩) fun _ _ _ h => h

/-- A destination is one that was there, or a new one at its path. -/
theorem Advance.holds (h : Advance D old new s a s') (hcross : Crosses D old new)
    (hlinked : Linked s) {id : Nat} {m : List Path} {dst : DestinationFile}
    (hheld : Holds s' id m dst) : s.backup dst.path = some (.file dst.inode) ∨
      s'.backup dst.path = some (.file dst.inode) := by
  have hkept : (∀ id n dst, Holds s' id n dst → Holds s id n dst) →
      s.backup dst.path = some (.file dst.inode) ∨ s'.backup dst.path = some (.file dst.inode) :=
    fun hholds => Or.inl (hlinked id m dst (hholds id m dst hheld))
  cases h with
  | attachOld _ _ _ hfile => exact hkept (holds_change hfile rfl rfl (Or.inl rfl))
  | attachNew => exact hkept (holds_add rfl)
  | @create rel id' content d file s₁ dest hpc hd hnode hfile hprov =>
    obtain ⟨-, -, hdst⟩ | ⟨-, hheld⟩ := holds_update (s := s₁) rfl hheld
    · cases hdst
      obtain ⟨hdest, -⟩ | ⟨-, inode, hopen, rfl⟩ := hprov
      · exact Or.inl (hlinked id' file.name dst ⟨file, hfile, rfl, hdest⟩)
      · obtain ⟨hfound, -⟩ | ⟨-, rfl, rfl⟩ := openCreate_cases hopen
        · exact Or.inl hfound
        · exact Or.inr (Function.update_self _ _ _)
    · exact Or.inl (hlinked id m dst (holds_same hprov.only.heap id m dst hheld))
  | @copyChunk id' content total n' file dest hpc hn hlen hfile hdest =>
    obtain ⟨-, -, hdst⟩ | ⟨-, hheld⟩ := holds_update (s := s) rfl hheld
    · cases hdst
      exact Or.inl (hlinked id' file.name dest ⟨file, hfile, rfl, hdest⟩)
    · exact Or.inl (hlinked id m dst hheld)
  | unhook _ hfile => exact hkept (holds_change hfile rfl rfl (Or.inr rfl))
  | releaseShared _ hfile => exact hkept (holds_change hfile rfl rfl (Or.inl rfl))
  | releaseLast => exact hkept (holds_drop rfl)
  | refuseOld _ _ hcapt => exact absurd hcross hcapt.not_crosses
  | refuseNew _ _ hcapt => exact absurd hcross hcapt.not_crosses
  | moveOld _ _ hcapt => exact absurd hcross hcapt.not_crosses
  | moveNew _ _ hcapt => exact absurd hcross hcapt.not_crosses
  | _ => exact hkept (holds_same rfl)

theorem Linked.advance (hlinked : Linked s) (h : Advance D old new s a s')
    (hcross : Crosses D old new) (hfresh : ∀ l i, s.backup l = some (.file i) → i < s.inodes) :
    Linked s' := by
  intro id m dst hheld
  obtain hfile | hfile := h.holds hcross hlinked hheld
  · exact (h.keeps_file (h.not_pushing hcross) hfresh hfile).1
  · exact hfile

/-- What an action of the rename or of the session leaves as it is. -/
structure Aside (s s' : State) : Prop where
  pc : s'.pc = s.pc
  index : s'.index = s.index
  todo : ∀ l ∈ s.todo, l ∈ s'.todo
  heap : s'.heap = s.heap
  backup : s'.backup = s.backup
  data : s'.data = s.data

theorem Advance.aside (h : Advance D old new s a s') (hcross : Crosses D old new)
    (ha : a.byCopier = false) : Aside s s' := by
  cases h with
  | rename => exact ⟨rfl, rfl, fun _ hl => hl, rfl, rfl, rfl⟩
  | ignore => exact ⟨rfl, rfl, fun _ hl => hl, rfl, rfl, rfl⟩
  | push => exact ⟨rfl, rfl, fun _ hl => List.mem_append_left _ hl, rfl, rfl, rfl⟩
  | endSession => exact ⟨rfl, rfl, fun _ hl => hl, rfl, rfl, rfl⟩
  | refuseOld _ _ hcapt => exact absurd hcross hcapt.not_crosses
  | refuseNew _ _ hcapt => exact absurd hcross hcapt.not_crosses
  | moveOld _ _ hcapt => exact absurd hcross hcapt.not_crosses
  | moveNew _ _ hcapt => exact absurd hcross hcapt.not_crosses
  | _ => cases ha

variable {j : Nat} {d : Path × Path} {front : List Path} {n : Path}

/-- The file that moves in, with its copy at `k`, which is still to come or has been written. -/
structure Arrives (D : DirectorySet) (old new : Path) (c : Content) (k : List Path) (j : Nat)
    (d : Path × Path) (front : List Path) (n : Path) (s : State) : Prop where
  tracked : Tracked D old new c k s
  linked : Linked s
  stored : Stored c (fun l => l = k) s
  coming : Ahead j front n s ∨ Written c.len k s
  directories : ∀ l, l <+: front → s.fs.node (components d.1 ++ l) = some .directory

/-- What the copier writes next to `k` is the file. -/
theorem Arrives.begins (hA : Arrives D old new c k j d front n s) (hok : CreatesIn D new k s)
    {rel : List Path} {id : Nat} {content : Content} {d' : Path × Path} {file : SourceFile}
    {s₁ : State} {dest : DestinationFile} (hpc : s.pc = .opened rel id content)
    (hd : D.dirs[s.index]? = some d') (hfile : s.heap id = some file)
    (hprov : Provides s file (components d'.2 ++ rel) s₁ dest)
    (hi : s₁.backup k = some (.file dest.inode)) : (content = c ∧ dest.offset = 0) ∧
      components d'.1 ++ rel = components new ∧ components d'.2 ++ rel = k := by
  have hkey : components d'.2 ++ rel = k ∨ ∃ dst ∈ file.destination, dst.path = k := by
    refine (hA.stored.provided_at hprov hi).imp_right fun ⟨hdest, hi⟩ => ⟨dest, hdest, ?_⟩
    exact hA.stored.single _ _ _ (hA.linked id file.name dest ⟨file, hfile, rfl, hdest⟩) hi
  obtain ⟨hname, hk, hdst⟩ := hok (rel, id) (by rw [hpc]; rfl) d' hd file hfile hkey
  refine ⟨⟨hA.tracked.content rel id content d' hpc hd hk hname, ?_⟩, hname, hk⟩
  obtain ⟨hdest, -⟩ | ⟨-, inode, -, rfl⟩ := hprov
  · exact (hdst dest hdest).2
  · rfl

/-- The copier comes closer to the file. -/
theorem Arrives.closer (hA : Arrives D old new c k j d front n s) (hP : Place D new k j d front n)
    (hahead : Ahead j front n s) (h : Advance D old new s a s') (ha : a.byCopier = true)
    (hcreate : a ≠ .create) (hok : ComesAcross D j front n k s a) : Ahead j front n s' := by
  have hpair : s.index = j → D.dirs[s.index]? = some d := fun hindex => by rw [hindex, hP.pair]
  have hlisted : ∀ entries, a = .list entries → s.index = j → s.pc.scans = some front →
      n ∈ entries := by
    intro entries heq hindex hscans
    subst heq
    exact hok hscans hindex
  have hfound : s.index = j → s.pc.reads = some (front ++ [n]) ∨
      (∃ todo, a = .pop ∧ s.todo = (front ++ [n]) :: todo) →
        s.fs.node (components new) = some (.regular c) := by
    rintro hindex (hreads | ⟨todo, rfl, htodo⟩)
    · apply hA.tracked.after
      exact hA.tracked.reading (front ++ [n]) d hreads (hpair hindex) hP.target.symm
    · apply hA.tracked.after
      exact hok _ (by rw [htodo]; rfl) d (hpair hindex) hP.target.symm
  exact (hahead.advance hP hA.directories h ha hlisted hfound).resolve_right
    fun hcreated => hcreate hcreated.1

/-- The file stays before the copier until its copy is created. -/
theorem Arrives.stays_ahead (hA : Arrives D old new c k j d front n s)
    (hP : Place D new k j d front n) (hahead : Ahead j front n s) (h : Advance D old new s a s')
    (hcross : Crosses D old new) (hcreate : a ≠ .create) (hok : ComesAcross D j front n k s a) :
    Ahead j front n s' := by
  cases ha : a.byCopier with
  | true => exact hA.closer hP hahead h ha hcreate hok
  | false =>
    have haside := h.aside hcross ha
    exact hahead.aside haside.pc haside.index haside.todo

/-- What is at `k` stays the beginning of any content when no copy is created. -/
theorem Stored.crossing {P : List Path → Prop} (hC : Consistent s) (hS : Stored c P s)
    (h : Advance D old new s a s') (hcross : Crosses D old new) (hcreate : a ≠ .create) :
    Stored c P s' :=
  hS.advance hC h (fun hcreated => absurd hcreated hcreate)
    (fun _ _ hcapt => absurd hcross hcapt.not_crosses)
    fun _ _ _ hcapt => absurd hcross hcapt.not_crosses

/-! ## Runs -/

/-- The directories stay, and the new path of the file is in one. -/
theorem Advance.directories (h : Advance D old new s a s') :
    (∀ l, s'.fs.node l = some .directory ↔ s.fs.node l = some .directory) ∧
      (s'.mover ≠ .idle → s.mover ≠ .idle ∨
        s.fs.node (components new).dropLast = some .directory) := by
  cases h with
  | @rename fs _ _ hfs =>
    refine ⟨Fs.renameFile_directory hfs, fun _ => Or.inr ?_⟩
    obtain ⟨content, -, ⟨-, -, hdirectory, -⟩, -⟩ := Fs.renameFile_some hfs
    exact hdirectory
  | ignore _ hmover =>
    refine ⟨fun _ => Iff.rfl, fun _ => Or.inl ?_⟩
    rw [hmover]
    simp
  | push hmover =>
    refine ⟨fun _ => Iff.rfl, fun _ => Or.inl ?_⟩
    rw [hmover]
    simp
  | create _ _ _ _ hprov =>
    refine ⟨fun l => ?_, fun hmoved => Or.inl ?_⟩
    · rw [← hprov.only.fs]
      rfl
    · rw [← hprov.only.mover]
      exact hmoved
  | refuseOld _ hmover =>
    refine ⟨fun _ => Iff.rfl, fun _ => Or.inl ?_⟩
    rw [hmover]
    simp
  | refuseNew _ hmover =>
    refine ⟨fun _ => Iff.rfl, fun _ => Or.inl ?_⟩
    rw [hmover]
    simp
  | moveOld _ hmover _ _ _ hprov hmove =>
    refine ⟨fun l => ?_, fun _ => Or.inl ?_⟩
    · rw [← (hprov.only.trans (renameBackup_only hmove)).fs]
      rfl
    · rw [hmover]
      simp
  | moveNew _ hmover _ _ hprov hmove =>
    refine ⟨fun l => ?_, fun _ => Or.inl ?_⟩
    · rw [← (hprov.only.trans (renameBackup_only hmove)).fs]
    · rw [hmover]
      simp
  | _ => exact ⟨fun _ => Iff.rfl, fun hmoved => Or.inl hmoved⟩

/-- A step other than the creation of a copy. -/
theorem Arrives.advance (hC : Consistent s) (hA : Arrives D old new c k j d front n s)
    (hP : Place D new k j d front n) (h : Advance D old new s a s') (hcross : Crosses D old new)
    (hcreate : a ≠ .create) (hok : ComesAcross D j front n k s a) :
    Arrives D old new c k j d front n s' where
  tracked := hA.tracked.advance h hcross hok
  linked := hA.linked.advance h hcross hA.stored.fresh
  stored := hA.stored.crossing hC h hcross hcreate
  coming := by
    obtain hahead | hwritten := hA.coming
    · exact Or.inl (hA.stays_ahead hP hahead h hcross hcreate hok)
    · refine Or.inr ?_
      cases ha : a.byCopier with
      | true => exact hwritten.advance hA.stored rfl h ha
      | false =>
        have haside := h.aside hcross ha
        have hholds : ∀ id n dst, Holds s' id n dst ↔ Holds s id n dst := fun id n dst => by
          rw [Holds, Holds, haside.heap]
        exact hwritten.aside haside.backup haside.data haside.pc hholds
  directories l hl := (h.directories.1 _).mpr (hA.directories l hl)

theorem Begins.stored {P : List Path → Prop} (h : Begins s) : Stored c P s := by
  refine ⟨h.fresh, h.single, fun id n dst hheld => ?_, fun id content total hpc => ?_,
    fun l i _ hi => ⟨0, Nat.zero_le _, ?_, fun id content total n dst hpc => ?_⟩⟩
  · exact h.fresh _ _ (h.linked id n dst hheld)
  · rw [h.pc] at hpc
    cases hpc
  · rw [Content.truncate_zero, h.empty l i hi]
  · rw [h.pc] at hpc
    cases hpc

theorem Begins.ahead (h : Begins s) : Ahead j front n s := by
  obtain hzero | hpos := Nat.eq_zero_or_pos j
  · exact .starting (h.index.trans hzero.symm) h.pc
  · refine .later (by rw [h.index]; exact hpos) ?_
    rw [h.pc]
    simp

end

/-! ## Sessions to begin with -/

/-- Two bytes. -/
def twoBytes : Content := Content.empty.write 0 [1, 2]

/-- One file, at `k`, and nothing in the backup. -/
def fileAt (k : List Path) : AList fun _ : List Path => Node :=
  [⟨[], .directory⟩, ⟨[['s']], .directory⟩, ⟨[['o']], .directory⟩,
    ⟨k, .regular twoBytes⟩].toAList

def startWith (fs : Fs) : State where
  fs := fs
  backup l := if l = [['b']] then some .directory else none
  data _ := .empty
  inodes := 0
  heap _ := none
  files := 0
  table _ := []
  index := 0
  todo := []
  pc := .next
  mover := .idle
  active := true
  error := none

def outside : Fs := .ofNodes (fileAt [['o'], ['f']]) (by decide)

def inside : Fs := .ofNodes (fileAt [['s'], ['f']]) (by decide)

end TokuBackup.Moves
