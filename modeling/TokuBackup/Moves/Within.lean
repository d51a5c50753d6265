import TokuBackup.Moves.Crossing

/-!
# Moves within a source directory

`capture_rename` moves the copy of a file along with the file, and creates an empty one when
there is none. The entry that it pushes is no path below the source directory, and the copier
skips it. So the file is in the backup when it had been copied before, or when the copier comes
across its new name afterwards; and a copy that has been made under the new name is lost when
the capture comes later and has nothing but an empty file to put there.
-/

namespace TokuBackup.Moves

open Kernel Lib

/-- What is written at `k` is the copy of `name`, from its beginning. -/
def Fits (D : DirectorySet) (name k : List Path) (s : State) : Prop :=
  ∀ x ∈ s.pc.opens, ∀ d ∈ D.dirs[s.index]?, s.fs.node (components d.1 ++ x.1) ≠ none →
    ∀ file ∈ s.heap x.2,
      (components d.2 ++ x.1 = k ∨ ∃ dst ∈ file.destination, dst.inode ∈ s.inodeAt k) →
        components d.1 ++ x.1 = name ∧
          ∀ dst ∈ file.destination, dst.inode ∈ s.inodeAt k ∧ dst.offset = 0

/-- The step keeps the copy of the file that moves from `k₀` to `k`. When the file moves it has
been copied, or the copier has the new name before it; so too when the capture moves the copy.
The listing of the directory returns the new name, unless the file has been copied. What is
written to the copies comes from the file. The capture finds the destination of the old path at
`k₀`, and one of the two paths in no use; and it comes before the end of the session. -/
def MovesWithinOk (D : DirectorySet) (old new : Path) (k₀ k : List Path) (j : Nat)
    (front : List Path) (n : Path) (len : Nat) (s : State) : Action → Prop
  | .pop => ∀ l ∈ s.todo.head?, ∀ d ∈ D.dirs[s.index]?, components d.2 ++ l = k₀ →
      components d.1 ++ l = components old
  | .list entries => s.mover ≠ .idle → s.index = j → s.pc.scans = some front →
      n ∈ entries ∨ Written len k₀ s ∨ Written len k s
  | .create => Fits D (components old) k₀ s ∧ Fits D (components new) k s
  | .rename => Written len k₀ s ∨ Ahead j front n s
  | .capture => (∀ id ∈ s.table (components old), ∀ dst ∈ s.destination id, dst.path = k₀) ∧
      (s.table (components old) = [] ∨ s.table (components new) = []) ∧
        (Refuses s k₀ ∨ Written len k₀ s ∨ Ahead j front n s)
  | .endSession => s.mover ≠ .renamed
  | _ => True

instance decidableWritten (len : Nat) (k : List Path) (s : State) : Decidable (Written len k s) :=
  inferInstanceAs (Decidable (∃ inode ∈ s.inodeAt k, len ≤ (s.data inode).len ∨
    ∃ id ∈ s.pc.copies, ∃ dst ∈ s.destination id, dst.inode = inode))

instance decidableRefuses (s : State) (k : List Path) : Decidable (Refuses s k) :=
  decidable_of_iff ((s.openCreate k).isOk = false) (by
    rw [Refuses]
    cases s.openCreate k <;> simp [Except.isOk, Except.toBool])

instance decidableFits (D : DirectorySet) (name k : List Path) (s : State) :
    Decidable (Fits D name k s) := by
  unfold Fits
  infer_instance

instance decidableMovesWithinOk (D : DirectorySet) (old new : Path) (k₀ k : List Path) (j : Nat)
    (front : List Path) (n : Path) (len : Nat) (s : State) (a : Action) :
    Decidable (MovesWithinOk D old new k₀ k j front n len s a) := by
  apply @Action.casesOn (fun a =>
    Decidable (MovesWithinOk D old new k₀ k j front n len s a)) a
  case pop =>
    unfold MovesWithinOk
    infer_instance
  case list =>
    intro entries
    have : Decidable (n ∈ entries) :=
      decidable_of_iff (entries.contains n = true) List.contains_iff_mem
    unfold MovesWithinOk
    infer_instance
  case create =>
    unfold MovesWithinOk
    infer_instance
  case rename =>
    unfold MovesWithinOk
    infer_instance
  case capture =>
    unfold MovesWithinOk
    infer_instance
  case endSession =>
    unfold MovesWithinOk
    infer_instance
  all_goals
    intros
    exact isTrue trivial

section

variable {D : DirectorySet} {old new : Path} {s s' s₁ : State} {a : Action} {c : Content}
  {k₀ k : List Path} {j : Nat} {d : Path × Path} {front : List Path} {n : Path}

/-- What the copier does changes neither the source nor where the rename stands. -/
theorem Advance.copier (h : Advance D old new s a s') (ha : a.byCopier = true) :
    s'.fs = s.fs ∧ s'.mover = s.mover ∧ s'.active = s.active := by
  cases h with
  | create _ _ _ _ hprov => exact ⟨hprov.only.fs, hprov.only.mover, hprov.only.active⟩
  | rename => cases ha
  | ignore => cases ha
  | refuseOld => cases ha
  | refuseNew => cases ha
  | moveOld => cases ha
  | moveNew => cases ha
  | push => cases ha
  | endSession => cases ha
  | _ => exact ⟨rfl, rfl, rfl⟩

/-! ## The file in the source -/

/-- The file that moves, with its content `c`, under its name of the time. -/
structure Follows (D : DirectorySet) (old new : Path) (c : Content) (s : State) : Prop where
  before : s.mover = .idle →
    s.fs.node (components old) = some (.regular c) ∧ s.fs.node (components new) = none
  after : s.mover ≠ .idle →
    s.fs.node (components new) = some (.regular c) ∧ s.fs.node (components old) = none ∧
      s.fs.node (components new).dropLast = some .directory
  opened : ∀ l id content d, s.pc = .opened l id content → D.dirs[s.index]? = some d →
    components d.1 ++ l = components old ∨ components d.1 ++ l = components new → content = c

theorem Follows.same (hF : Follows D old new c s) (hfs : s'.fs = s.fs)
    (hmover : s'.mover = .idle ↔ s.mover = .idle)
    (hopened : ∀ l id content, s'.pc = .opened l id content →
      s.pc = .opened l id content ∧ s'.index = s.index) : Follows D old new c s' where
  before := by
    rw [hmover, hfs]
    exact hF.before
  after := by
    rw [Ne, hmover, hfs]
    exact hF.after
  opened l id content d hpc hd hname := by
    obtain ⟨hpc', hindex⟩ := hopened l id content hpc
    exact hF.opened l id content d hpc' (hindex ▸ hd) hname

/-- A file that is read under one of the two names has the content. -/
theorem Follows.read (hF : Follows D old new c s) {l : List Path} {content : Content}
    (hname : l = components old ∨ l = components new)
    (hnode : s.fs.node l = some (.regular content)) : content = c := by
  by_cases hidle : s.mover = .idle
  · obtain ⟨hold, hnew⟩ := hF.before hidle
    obtain rfl | rfl := hname
    · rw [hold] at hnode
      cases hnode
      rfl
    · rw [hnew] at hnode
      cases hnode
  · obtain ⟨hnew, hold, -⟩ := hF.after hidle
    obtain rfl | rfl := hname
    · rw [hold] at hnode
      cases hnode
    · rw [hnew] at hnode
      cases hnode
      rfl

theorem Follows.advance (hF : Follows D old new c s) (h : Advance D old new s a s')
    (hne : components old ≠ components new) : Follows D old new c s' := by
  have hkept : ∀ {v : State}, v.fs = s.fs → v.index = s.index → v.pc = s.pc →
      s.mover ≠ .idle → v.mover ≠ .idle → Follows D old new c v := by
    intro v hfs hindex hpc hmover hmover'
    refine hF.same hfs (iff_of_false hmover' hmover) fun l id content hopened => ⟨?_, hindex⟩
    rw [← hpc]
    exact hopened
  cases h with
  | startDirectory => exact hF.same rfl Iff.rfl (by simp)
  | finish => exact hF.same rfl Iff.rfl (by simp)
  | endDirectory => exact hF.same rfl Iff.rfl (by simp)
  | exclude => exact hF.same rfl Iff.rfl (by simp)
  | vanish => exact hF.same rfl Iff.rfl (by simp)
  | find => exact hF.same rfl Iff.rfl (by simp)
  | scanOld => exact hF.same rfl Iff.rfl (by simp)
  | scanNew => exact hF.same rfl Iff.rfl (by simp)
  | list => exact hF.same rfl Iff.rfl (by simp)
  | attachOld => exact hF.same rfl Iff.rfl (by simp)
  | attachNew => exact hF.same rfl Iff.rfl (by simp)
  | @openFile rel id d content hpc hd hnode =>
    refine ⟨hF.before, hF.after, fun l id' content' d' hpc' hd' hname => ?_⟩
    cases hpc'
    have hd' : D.dirs[s.index]? = some d' := hd'
    rw [hd] at hd'
    cases hd'
    exact hF.read hname hnode
  | openGone => exact hF.same rfl Iff.rfl (by simp)
  | createGone => exact hF.same rfl Iff.rfl (by simp)
  | create _ _ _ _ hprov =>
    exact hF.same hprov.only.fs (iff_of_eq (congrArg (· = Mover.idle) hprov.only.mover)) (by simp)
  | endOfFile => exact hF.same rfl Iff.rfl (by simp)
  | copyChunk => exact hF.same rfl Iff.rfl (by simp)
  | unhookShared => exact hF.same rfl Iff.rfl (by simp)
  | unhook => exact hF.same rfl Iff.rfl (by simp)
  | releaseShared => exact hF.same rfl Iff.rfl (by simp)
  | releaseLast => exact hF.same rfl Iff.rfl (by simp)
  | @rename fs _ hmover hfs =>
    obtain ⟨content, hold, ⟨-, -, hdirectory, -⟩, hnode⟩ := Fs.renameFile_some hfs
    refine ⟨fun hidle => ?_, fun _ => ⟨?_, ?_, ?_⟩, hF.opened⟩
    · cases hidle
    · rw [(hF.before hmover).1] at hold
      cases hold
      exact (hnode _).trans (if_pos rfl)
    · exact ((hnode _).trans (if_neg hne)).trans (if_pos rfl)
    · exact (Fs.renameFile_directory hfs _).mpr hdirectory
  | ignore _ hmover => exact hkept rfl rfl rfl (by rw [hmover]; simp) (by simp)
  | refuseOld _ hmover => exact hkept rfl rfl rfl (by rw [hmover]; simp) (by simp)
  | refuseNew _ hmover => exact hkept rfl rfl rfl (by rw [hmover]; simp) (by simp)
  | moveOld _ hmover _ _ _ hprov hren =>
    have honly := hprov.only.trans (renameBackup_only hren)
    exact hkept honly.fs honly.index honly.pc (by rw [hmover]; simp) (by simp)
  | moveNew _ hmover _ _ hprov hren =>
    have honly := hprov.only.trans (renameBackup_only hren)
    exact hkept honly.fs honly.index honly.pc (by rw [hmover]; simp) (by simp)
  | push hmover => exact hkept rfl rfl rfl (by rw [hmover]; simp) (by simp)
  | endSession => exact hF.same rfl Iff.rfl fun _ _ _ hpc => ⟨hpc, rfl⟩

/-! ## The two places in the backup -/

theorem Captures.unique {oldDest newDest : List Path} (h : Captures D old new k₀ k)
    (h' : Captures D old new oldDest newDest) : oldDest = k₀ ∧ newDest = k := by
  obtain ⟨p, q, hp, hq, rfl, rfl⟩ := h
  obtain ⟨p', q', hp', hq', rfl, rfl⟩ := h'
  rw [hp] at hp'
  rw [hq] at hq'
  cases hp'
  cases hq'
  exact ⟨rfl, rfl⟩

theorem Refuses.not_file (h : Refuses s k) (i : Nat) : s.backup k ≠ some (.file i) := by
  intro hfile
  obtain ⟨e, he⟩ := h
  rw [State.openCreate, hfile] at he
  cases he

/-- What the copier writes next to one of the places comes from the file. -/
theorem Fits.begins {P : List Path → Prop} {name l rel : List Path} {id : Nat} {content : Content}
    {file : SourceFile} {dest : DestinationFile} (hfits : Fits D name l s)
    (hS : Stored c P s) (hF : Follows D old new c s)
    (hname : name = components old ∨ name = components new) (hpc : s.pc = .opened rel id content)
    (hd : D.dirs[s.index]? = some d) (hnode : s.fs.node (components d.1 ++ rel) ≠ none)
    (hfile : s.heap id = some file) (hprov : Provides s file (components d.2 ++ rel) s₁ dest)
    (hi : s₁.backup l = some (.file dest.inode)) : content = c ∧ dest.offset = 0 := by
  have hwhere : components d.2 ++ rel = l ∨ ∃ dst ∈ file.destination, dst.inode ∈ s.inodeAt l :=
    (hS.provided_at hprov hi).imp_right fun h => ⟨dest, h.1, mem_inodeAt.mpr h.2⟩
  obtain ⟨heq, hdst⟩ := hfits (rel, id) (by rw [hpc]; rfl) d hd hnode file hfile hwhere
  refine ⟨hF.opened rel id content d hpc hd (by rw [heq]; exact hname), ?_⟩
  obtain ⟨hdest, -⟩ | ⟨-, inode, -, rfl⟩ := hprov
  · exact (hdst dest hdest).2
  · rfl

/-- The old place has never been a directory, and is empty after the capture. -/
structure Left (k₀ : List Path) (s : State) : Prop where
  free : s.backup k₀ ≠ some .directory
  gone : s.mover ≠ .idle → s.mover ≠ .renamed → s.backup k₀ = none

theorem Left.same (hL : Left k₀ s) (hbackup : s'.backup k₀ = s.backup k₀)
    (hmover : s'.mover ≠ .idle → s'.mover ≠ .renamed → s.mover ≠ .idle ∧ s.mover ≠ .renamed) :
    Left k₀ s' where
  free := by
    rw [hbackup]
    exact hL.free
  gone hidle hrenamed := by
    rw [hbackup]
    exact hL.gone (hmover hidle hrenamed).1 (hmover hidle hrenamed).2

theorem Left.of_none (h : s.backup k₀ = none) : Left k₀ s where
  free := by
    rw [h]
    simp
  gone _ _ := h

theorem Left.refuse (hL : Left k₀ s) (h : Refuses s k₀) : s.backup k₀ = none := by
  cases hk : s.backup k₀ with
  | none => rfl
  | some entry =>
    cases entry with
    | directory => exact absurd hk hL.free
    | file i => exact absurd hk (h.not_file i)

theorem renameBackup_gone (h : s.renameBackup k₀ k = .ok s') (hne : k ≠ k₀) :
    s'.backup k₀ = none := by
  obtain ⟨inode, -, -, rfl⟩ := renameBackup_cases h
  exact (Function.update_of_ne (Ne.symm hne) _ _).trans (Function.update_self _ _ _)

/-- The capture renames what is at the old place. -/
theorem path_of_captured {id : Nat} {rest : List Nat} {file : SourceFile} {dest : DestinationFile}
    (hpath : ∀ id ∈ s.table (components old), ∀ dst ∈ s.destination id, dst.path = k₀)
    (htable : s.table (components old) = id :: rest) (hfile : s.heap id = some file)
    (hprov : Provides s file k₀ s₁ dest) : dest.path = k₀ := by
  refine hprov.path_eq fun dst hdst => ?_
  exact hpath id (by rw [htable]; exact List.mem_cons_self) dst
    (mem_destination.mpr ⟨_, file, hfile, rfl, hdst⟩)

theorem Left.advance (hL : Left k₀ s) (hF : Follows D old new c s)
    (hcapt : Captures D old new k₀ k) (hne : k ≠ k₀) (h : Advance D old new s a s')
    (hok : MovesWithinOk D old new k₀ k j front n c.len s a) : Left k₀ s' := by
  have hsame : ∀ {v : State}, v.backup = s.backup → v.mover = s.mover → Left k₀ v := by
    intro v hbackup hmover
    exact hL.same (congrFun hbackup k₀) fun h h' => ⟨hmover ▸ h, hmover ▸ h'⟩
  cases h with
  | startDirectory => exact hsame rfl rfl
  | finish => exact hsame rfl rfl
  | endDirectory => exact hsame rfl rfl
  | exclude => exact hsame rfl rfl
  | vanish => exact hsame rfl rfl
  | find => exact hsame rfl rfl
  | scanOld => exact hsame rfl rfl
  | @scanNew rel todo d _ htodo hd hnode =>
    have hother : components d.2 ++ rel ≠ k₀ := by
      intro heq
      rw [hok rel (by rw [htodo]; rfl) d hd heq] at hnode
      by_cases hidle : s.mover = .idle
      · rw [(hF.before hidle).1] at hnode
        cases hnode
      · rw [(hF.after hidle).2.1] at hnode
        cases hnode
    exact hL.same (Function.update_of_ne (Ne.symm hother) _ _) fun h h' => ⟨h, h'⟩
  | list => exact hsame rfl rfl
  | attachOld => exact hsame rfl rfl
  | attachNew => exact hsame rfl rfl
  | openFile => exact hsame rfl rfl
  | openGone => exact hsame rfl rfl
  | createGone => exact hsame rfl rfl
  | @create rel id content d file s₁ dest hpc hd hnode hfile hprov =>
    by_cases heq : components d.2 ++ rel = k₀
    · obtain ⟨hname, -⟩ := hok.1 (rel, id) (by rw [hpc]; rfl) d hd hnode file hfile (Or.inl heq)
      have hidle : s.mover = .idle := by
        by_contra hmoved
        rw [hname] at hnode
        exact hnode (hF.after hmoved).2.1
      refine ⟨?_, fun hmoved => absurd (hprov.only.mover.trans hidle) hmoved⟩
      change s₁.backup k₀ ≠ _
      obtain ⟨-, rfl⟩ | ⟨-, inode, hopen, -⟩ := hprov
      · exact hL.free
      · obtain ⟨-, rfl⟩ | ⟨-, -, rfl⟩ := openCreate_cases hopen
        · exact hL.free
        · rw [heq]
          change Function.update _ _ _ _ ≠ _
          rw [Function.update_self]
          simp
    · refine hL.same (hprov.backup_ne (Ne.symm heq)) fun h h' => ?_
      rw [← hprov.only.mover]
      exact ⟨h, h'⟩
  | endOfFile => exact hsame rfl rfl
  | copyChunk => exact hsame rfl rfl
  | unhookShared => exact hsame rfl rfl
  | unhook => exact hsame rfl rfl
  | releaseShared => exact hsame rfl rfl
  | releaseLast => exact hsame rfl rfl
  | rename => exact hL.same rfl fun _ h' => absurd rfl h'
  | ignore _ _ hout => exact absurd hout hcapt.not_crosses
  | refuseOld _ _ hcapt' _ _ _ href =>
    obtain ⟨rfl, -⟩ := hcapt.unique hcapt'
    exact .of_none (hL.refuse href)
  | refuseNew _ _ hcapt' _ href =>
    obtain ⟨rfl, -⟩ := hcapt.unique hcapt'
    exact .of_none (hL.refuse href)
  | moveOld _ _ hcapt' htable hfile hprov hren =>
    obtain ⟨rfl, rfl⟩ := hcapt.unique hcapt'
    rw [path_of_captured hok.1 htable hfile hprov] at hren
    have hgone := renameBackup_gone hren hne
    exact .of_none hgone
  | moveNew _ _ hcapt' _ hprov hren =>
    obtain ⟨rfl, rfl⟩ := hcapt.unique hcapt'
    rw [hprov.path_eq fun dst hdst => by cases hdst] at hren
    have hgone := renameBackup_gone hren hne
    exact .of_none hgone
  | push hmover => exact hL.same rfl fun _ _ => by rw [hmover]; simp
  | endSession => exact hsame rfl rfl

/-! ## On the way to the new place -/

/-- Once the file has moved it has been copied under one of its names, or the copier has the new
one before it. -/
def Toward (k₀ k : List Path) (j : Nat) (front : List Path) (n : Path) (len : Nat) (s : State) :
    Prop :=
  s.mover ≠ .idle →
    s.mover = .renamed ∧ Written len k₀ s ∨ Ahead j front n s ∨ Written len k s

theorem Toward.copier (hT : Toward k₀ k j front n c.len s) (hP : Place D new k j d front n)
    (hS : Stored c (fun l => l = k₀ ∨ l = k) s) (hF : Follows D old new c s) (hL : Left k₀ s)
    (h : Advance D old new s a s') (ha : a.byCopier = true)
    (hok : MovesWithinOk D old new k₀ k j front n c.len s a) :
    Toward k₀ k j front n c.len s' := by
  intro hmoved
  obtain ⟨-, hmover, -⟩ := h.copier ha
  rw [hmover] at hmoved ⊢
  have hrenamed : Written c.len k₀ s → s.mover = .renamed := by
    rintro ⟨i, hi, -⟩
    by_contra hdone
    rw [mem_inodeAt, hL.gone hmoved hdone] at hi
    cases hi
  by_cases hW₀ : Written c.len k₀ s
  · exact Or.inl ⟨hrenamed hW₀, hW₀.advance hS (Or.inl rfl) h ha⟩
  by_cases hW : Written c.len k s
  · exact Or.inr (Or.inr (hW.advance hS (Or.inr rfl) h ha))
  obtain ⟨hnew, -, hdirectory⟩ := hF.after hmoved
  have hA : Ahead j front n s := by
    obtain ⟨-, h⟩ | h | h := hT hmoved
    · exact absurd h hW₀
    · exact h
    · exact absurd h hW
  have hlisted : ∀ entries, a = .list entries → s.index = j → s.pc.scans = some front →
      n ∈ entries := by
    intro entries heq hindex hscans
    subst heq
    obtain hmem | hW' | hW' := hok hmoved hindex hscans
    · exact hmem
    · exact absurd hW' hW₀
    · exact absurd hW' hW
  obtain hA' | ⟨rfl, hindex, hpc⟩ :=
    hA.advance hP (hP.directories hdirectory) h ha hlisted fun _ _ => hnew
  · exact Or.inr (Or.inl hA')
  · refine Or.inr (Or.inr (written_create hP h hindex hpc (by rw [hnew]; simp) ?_))
    intro id content file hopened hfile dst hdst
    have hpair : D.dirs[s.index]? = some d := by rw [hindex, hP.pair]
    have hfits := hok.2 (front ++ [n], id) (by rw [hopened]; rfl) d hpair
      (by rw [← hP.source, hnew]; simp) file hfile (Or.inl hP.target.symm)
    exact mem_inodeAt.mp (hfits.2 dst hdst).1

/-- The new place stays as it is when the copier stands still. -/
theorem Toward.aside {len : Nat} (hT : Ahead j front n s ∨ Written len k s) (hpc : s'.pc = s.pc)
    (hindex : s'.index = s.index) (htodo : ∀ l ∈ s.todo, l ∈ s'.todo)
    (hbackup : s'.backup = s.backup) (hdata : s'.data = s.data)
    (hholds : ∀ id n dst, Holds s' id n dst ↔ Holds s id n dst) :
    Ahead j front n s' ∨ Written len k s' := by
  obtain hA | hW := hT
  · exact Or.inl (hA.aside hpc hindex htodo)
  · exact Or.inr (hW.aside hbackup hdata hpc hholds)

/-- The copy at the old place is the one that the capture renames. -/
theorem Written.provides {len : Nat} (hW : Written len k s) {file : SourceFile}
    {dest : DestinationFile} (h : Provides s file k s₁ dest) : s₁ = s := by
  obtain ⟨i, hi, -⟩ := hW
  obtain ⟨-, rfl⟩ | ⟨-, inode, hopen, -⟩ := h
  · rfl
  · obtain ⟨-, rfl⟩ | ⟨hnone, -⟩ := openCreate_cases hopen
    · rfl
    · rw [mem_inodeAt, hnone] at hi
      cases hi

/-- The source file that moves takes its destination along. -/
theorem Written.redirected {len : Nat} {l m newName : List Path} {id : Nat} {file : SourceFile}
    {dest : DestinationFile} (hW : Written len k s) (hfile : s.heap id = some file)
    (hdest : ∀ dst, file.destination = some dst → dst = dest) :
    Written len k { (s.remove m).put id ⟨newName, file.references, some { dest with path := l }⟩
      with mover := .pushing l } := by
  obtain ⟨i, hi, hwritten⟩ := hW
  refine ⟨i, hi, hwritten.imp_right fun ⟨id', hid', dst, hdst, hinode⟩ => ?_⟩
  obtain ⟨name, f, hf, hn, hd⟩ := mem_destination.mp hdst
  by_cases hid : id' = id
  · subst hid
    rw [hfile] at hf
    cases hf
    rw [hdest dst hd] at hinode
    exact ⟨id', hid', { dest with path := l },
      mem_destination.mpr ⟨newName, _, Function.update_self _ _ _, rfl, rfl⟩, hinode⟩
  · refine ⟨id', hid', dst, mem_destination.mpr ⟨name, f, ?_, hn, hd⟩, hinode⟩
    exact (Function.update_of_ne hid _ _).trans hf

/-- A capture that renames something is no refusal. -/
theorem Provides.not_refuses {file : SourceFile} {dest : DestinationFile} {l : List Path}
    (h : Provides s file k₀ s₁ dest) (hpath : dest.path = k₀)
    (hren : s₁.renameBackup dest.path l = .ok s') : ¬ Refuses s k₀ := by
  intro href
  obtain ⟨-, rfl⟩ | ⟨-, inode, hopen, -⟩ := h
  · obtain ⟨i, hi, -⟩ := renameBackup_cases hren
    rw [hpath] at hi
    exact href.not_file i hi
  · obtain ⟨e, he⟩ := href
    rw [hopen] at he
    cases he

theorem Toward.mover (hC : Consistent s) (hT : Toward k₀ k j front n c.len s)
    (hcapt : Captures D old new k₀ k) (h : Advance D old new s a s') (ha : a.byCopier = false)
    (hok : MovesWithinOk D old new k₀ k j front n c.len s a) :
    Toward k₀ k j front n c.len s' := by
  have hrefuse : Refuses s k₀ → s.mover ≠ .idle → Ahead j front n s ∨ Written c.len k s := by
    intro href hmoved
    obtain ⟨-, i, hi, -⟩ | hT := hT hmoved
    · exact absurd (mem_inodeAt.mp hi) (href.not_file i)
    · exact hT
  cases h with
  | rename =>
    intro _
    obtain hW | hA := hok
    · exact Or.inl ⟨rfl, hW.aside rfl rfl rfl fun _ _ _ => Iff.rfl⟩
    · exact Or.inr (Or.inl (hA.aside rfl rfl fun _ hl => hl))
  | ignore _ _ hout => exact absurd hout hcapt.not_crosses
  | refuseOld _ hmover hcapt' _ hfile _ href =>
    obtain ⟨rfl, -⟩ := hcapt.unique hcapt'
    exact fun _ => Or.inr (Toward.aside (hrefuse href (by rw [hmover]; simp)) rfl rfl
      (fun _ hl => hl) rfl rfl (holds_iff hfile rfl rfl rfl))
  | refuseNew _ hmover hcapt' _ href =>
    obtain ⟨rfl, -⟩ := hcapt.unique hcapt'
    exact fun _ => Or.inr (Toward.aside (hrefuse href (by rw [hmover]; simp)) rfl rfl
      (fun _ hl => hl) rfl rfl (holds_iff_add hC.heap_files rfl))
  | @moveOld oldDest newDest id rest file s₁ dest s₂ _ hmover hcapt' htable hfile hprov hren =>
    obtain ⟨rfl, rfl⟩ := hcapt.unique hcapt'
    have honly := hprov.only.trans (renameBackup_only hren)
    have hpath := path_of_captured hok.1 htable hfile hprov
    refine fun _ => Or.inr ?_
    obtain href | hW | hA := hok.2.2
    · exact absurd href (hprov.not_refuses hpath hren)
    · refine Or.inr ?_
      obtain rfl := hW.provides hprov
      rw [hpath] at hren
      refine (hW.moved hren).redirected (by rw [honly.heap]; exact hfile) fun dst hdst => ?_
      obtain ⟨hdest, -⟩ | ⟨hnone, -⟩ := hprov
      · exact Option.some.inj (hdst.symm.trans hdest)
      · rw [hnone] at hdst
        cases hdst
    · exact Or.inl (hA.aside honly.pc honly.index fun l hl => by
        change l ∈ s₂.todo
        rw [honly.todo]
        exact hl)
  | @moveNew oldDest newDest s₁ dest s₂ _ hmover hcapt' _ hprov hren =>
    obtain ⟨rfl, rfl⟩ := hcapt.unique hcapt'
    have honly := hprov.only.trans (renameBackup_only hren)
    have hpath := hprov.path_eq fun dst hdst => by cases hdst
    refine fun _ => Or.inr ?_
    obtain href | hW | hA := hok.2.2
    · exact absurd href (hprov.not_refuses hpath hren)
    · obtain rfl := hW.provides hprov
      rw [hpath] at hren
      exact Or.inr ((hW.moved hren).aside rfl rfl rfl fun _ _ _ => Iff.rfl)
    · exact Or.inl (hA.aside honly.pc honly.index fun l hl => by
        change l ∈ s₂.todo
        rw [honly.todo]
        exact hl)
  | push hmover =>
    refine fun _ => Or.inr ?_
    obtain ⟨hrenamed, -⟩ | hT := hT (by rw [hmover]; simp)
    · rw [hmover] at hrenamed
      cases hrenamed
    · exact Toward.aside hT rfl rfl (fun _ hl => List.mem_append_left _ hl) rfl rfl
        fun _ _ _ => Iff.rfl
  | endSession =>
    intro hmoved
    obtain ⟨hrenamed, hW⟩ | hT := hT hmoved
    · exact Or.inl ⟨hrenamed, hW.aside rfl rfl rfl fun _ _ _ => Iff.rfl⟩
    · exact Or.inr (Toward.aside hT rfl rfl (fun _ hl => hl) rfl rfl fun _ _ _ => Iff.rfl)
  | _ => cases ha

/-- The capture has come before the end of the session. -/
theorem Advance.before_end (h : Advance D old new s a s')
    (hok : MovesWithinOk D old new k₀ k j front n c.len s a)
    (hended : s.active = false → s.mover ≠ .renamed) : s'.active = false → s'.mover ≠ .renamed := by
  cases ha : a.byCopier with
  | true =>
    obtain ⟨-, hmover, hactive⟩ := h.copier ha
    rw [hmover, hactive]
    exact hended
  | false =>
    cases h with
    | rename hactive =>
      intro hended
      change s.active = false at hended
      rw [hactive] at hended
      cases hended
    | endSession => exact fun _ => hok
    | _ => simp_all [Action.byCopier]

/-! ## Runs -/

/-- The file on its way from the old place of its copy to the new one. -/
structure Within (D : DirectorySet) (old new : Path) (k₀ k : List Path) (j : Nat)
    (front : List Path) (n : Path) (c : Content) (s : State) : Prop where
  consistent : Consistent s
  follows : Follows D old new c s
  stored : Stored c (fun l => l = k₀ ∨ l = k) s
  left : Left k₀ s
  toward : Toward k₀ k j front n c.len s
  ended : s.active = false → s.mover ≠ .renamed

theorem Within.advance (hW : Within D old new k₀ k j front n c s)
    (hP : Place D new k j d front n) (hcapt : Captures D old new k₀ k)
    (hne : components old ≠ components new) (hkne : k ≠ k₀) (h : Advance D old new s a s')
    (hok : MovesWithinOk D old new k₀ k j front n c.len s a) :
    Within D old new k₀ k j front n c s' where
  consistent := by
    refine hW.consistent.advance h hne fun hcapture _ => ?_
    subst hcapture
    exact hok.2.1
  follows := hW.follows.advance h hne
  stored := by
    refine hW.stored.advance hW.consistent h ?_ (fun oldDest newDest hcapt' _ => ?_) ?_
    · intro hcreate rel id content d file s₁ dest hpc hd hnode hfile hprov l hl hi
      subst hcreate
      obtain rfl | rfl := hl
      · exact hok.1.begins hW.stored hW.follows (Or.inl rfl) hpc hd hnode hfile hprov hi
      · exact hok.2.begins hW.stored hW.follows (Or.inr rfl) hpc hd hnode hfile hprov hi
    · exact Or.inl (hcapt.unique hcapt').1
    · intro hcapture oldDest newDest hcapt'
      subst hcapture
      rw [(hcapt.unique hcapt').1]
      exact hok.1
  left := hW.left.advance hW.follows hcapt hkne h hok
  toward := by
    cases ha : a.byCopier with
    | true => exact hW.toward.copier hP hW.stored hW.follows hW.left h ha hok
    | false => exact hW.toward.mover hW.consistent hcapt h ha hok
  ended := h.before_end hok hW.ended

theorem Begins.within (h : Begins s) (hcontent : s.fs.node (components old) = some (.regular c))
    (hnew : s.fs.node (components new) = none) (hfree : s.backup k₀ ≠ some .directory) :
    Within D old new k₀ k j front n c s where
  consistent := h.consistent
  follows := by
    refine ⟨fun _ => ⟨hcontent, hnew⟩, fun hmoved => absurd h.mover hmoved, ?_⟩
    intro l id content d hpc
    rw [h.pc] at hpc
    cases hpc
  stored := h.stored
  left := ⟨hfree, fun hmoved => absurd h.mover hmoved⟩
  toward hmoved := absurd h.mover hmoved
  ended _ := by
    rw [h.mover]
    simp

end

/-! ## The main result -/

end TokuBackup.Moves
