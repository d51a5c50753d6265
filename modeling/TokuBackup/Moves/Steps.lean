import TokuBackup.Moves.Model

/-!
# What a step does

While every source file in use stands in the table under its own name, alone, a step does one
of the things that `Advance` lists, or the backup has failed.
-/

namespace TokuBackup.Moves

open Kernel

/-- The source file that the copier works with. -/
def Pc.file : Pc → Option Nat
  | .attached _ file => some file
  | .opened _ file _ => some file
  | .copying file _ _ => some file
  | .copied file => some file
  | .unhooked file => some file
  | _ => none

/-- The source files in use are those of the table, one for each name. -/
structure Consistent (s : State) : Prop where
  listed : ∀ id file, s.heap id = some file → s.table file.name = [id]
  named : ∀ name id, id ∈ s.table name → ∃ file, s.heap id = some file ∧ file.name = name
  counted : ∀ id file, s.heap id = some file → 1 ≤ file.references
  fresh : ∀ id file, s.heap id = some file → id < s.files
  held : ∀ id, s.pc.file = some id → ∃ file, s.heap id = some file

/-- The backup will not be reported as done. -/
def Failed (s : State) : Prop := s.error ≠ none ∨ ∃ r, r ≠ 0 ∧ s.pc = .returned r

/-- A destination for `file`: the one it has, or one at `k`. -/
def Provides (s : State) (file : SourceFile) (k : List Path) (s₁ : State)
    (d : DestinationFile) : Prop :=
  file.destination = some d ∧ s₁ = s ∨
    file.destination = none ∧ ∃ inode, s.openCreate k = .ok (s₁, inode) ∧ d = ⟨k, inode, 0⟩

/-- `try_to_create_destination_file` cannot create it at `k`. -/
def Refuses (s : State) (k : List Path) : Prop := ∃ e, s.openCreate k = .error e

/-- The capture has the two paths to work with. -/
def Captures (D : DirectorySet) (old new : Path) (oldDest newDest : List Path) : Prop :=
  ∃ p q, D.translatePrefixOfRealpath old = some p ∧ D.translatePrefixOfRealpath new = some q ∧
    components p = oldDest ∧ components q = newDest

inductive Advance (D : DirectorySet) (old new : Path) (s : State) : Action → State → Prop
  | startDirectory (hpc : s.pc = .next) (hlt : s.index < D.dirs.length) :
      Advance D old new s .next { s with todo := s.todo ++ [[]], pc := .loop }
  | finish (hpc : s.pc = .next) (hle : D.dirs.length ≤ s.index) :
      Advance D old new s .next { s with pc := .returned 0 }
  | endDirectory (hpc : s.pc = .loop) (htodo : s.todo = []) :
      Advance D old new s .next { s with index := s.index + 1, pc := .next }
  | exclude {rel todo d} (hpc : s.pc = .loop) (htodo : s.todo = rel :: todo)
      (hd : D.dirs[s.index]? = some d)
      (hex : D.excludeCopy (Copier.entryPath d.1 rel) = true) :
      Advance D old new s .pop { s with todo := todo, pc := .loop }
  | vanish {rel todo d} (hpc : s.pc = .loop) (htodo : s.todo = rel :: todo)
      (hd : D.dirs[s.index]? = some d) (hnode : s.fs.node (components d.1 ++ rel) = none) :
      Advance D old new s .pop { s with todo := todo, pc := .loop }
  | find {rel todo d content} (hpc : s.pc = .loop) (htodo : s.todo = rel :: todo)
      (hd : D.dirs[s.index]? = some d)
      (hnode : s.fs.node (components d.1 ++ rel) = some (.regular content)) :
      Advance D old new s .pop { s with todo := todo, pc := .found rel }
  | scanOld {rel todo d} (hpc : s.pc = .loop) (htodo : s.todo = rel :: todo)
      (hd : D.dirs[s.index]? = some d)
      (hnode : s.fs.node (components d.1 ++ rel) = some .directory) :
      Advance D old new s .pop { s with
        todo := todo, pc := .scanning rel (s.fs.names (components d.1 ++ rel)) }
  | scanNew {rel todo d} (hpc : s.pc = .loop) (htodo : s.todo = rel :: todo)
      (hd : D.dirs[s.index]? = some d)
      (hnode : s.fs.node (components d.1 ++ rel) = some .directory)
      (hnew : s.backup (components d.2 ++ rel) = none) :
      Advance D old new s .pop { s with
        backup := Function.update s.backup (components d.2 ++ rel) (some .directory)
        todo := todo, pc := .scanning rel (s.fs.names (components d.1 ++ rel)) }
  | list {rel required d entries} (hpc : s.pc = .scanning rel required)
      (hd : D.dirs[s.index]? = some d)
      (hlist : IsListing s.fs (components d.1 ++ rel) required entries) :
      Advance D old new s (.list entries)
        { s with todo := s.todo ++ entries.map fun n => rel ++ [n], pc := .loop }
  | attachOld {rel d id rest file} (hpc : s.pc = .found rel) (hd : D.dirs[s.index]? = some d)
      (htable : s.table (components d.1 ++ rel) = id :: rest) (hfile : s.heap id = some file) :
      Advance D old new s .attach
        { s.setFile id (some { file with references := file.references + 1 }) with
          pc := .attached rel id }
  | attachNew {rel d} (hpc : s.pc = .found rel) (hd : D.dirs[s.index]? = some d)
      (htable : s.table (components d.1 ++ rel) = []) :
      Advance D old new s .attach
        { s.put s.files ⟨components d.1 ++ rel, 1, none⟩ with
          files := s.files + 1, pc := .attached rel s.files }
  | openFile {rel id d content} (hpc : s.pc = .attached rel id) (hd : D.dirs[s.index]? = some d)
      (hnode : s.fs.node (components d.1 ++ rel) = some (.regular content)) :
      Advance D old new s .openSource { s with pc := .opened rel id content }
  | openGone {rel id d} (hpc : s.pc = .attached rel id) (hd : D.dirs[s.index]? = some d)
      (hnode : s.fs.node (components d.1 ++ rel) = none) :
      Advance D old new s .openSource { s with pc := .unhooked id }
  | createGone {rel id content d} (hpc : s.pc = .opened rel id content)
      (hd : D.dirs[s.index]? = some d) (hnode : s.fs.node (components d.1 ++ rel) = none) :
      Advance D old new s .create { s with pc := .copied id }
  | create {rel id content d file s₁ dest} (hpc : s.pc = .opened rel id content)
      (hd : D.dirs[s.index]? = some d) (hnode : s.fs.node (components d.1 ++ rel) ≠ none)
      (hfile : s.heap id = some file) (hprov : Provides s file (components d.2 ++ rel) s₁ dest) :
      Advance D old new s .create
        { s₁.setFile id (some { file with destination := some dest }) with
          pc := .copying id content 0 }
  | endOfFile {id content total} (hpc : s.pc = .copying id content total)
      (hend : total = content.len) :
      Advance D old new s (.copy 0) { s with pc := .copied id }
  | copyChunk {id content total n file dest} (hpc : s.pc = .copying id content total)
      (hn : n ≠ 0) (hlen : total + n ≤ content.len) (hfile : s.heap id = some file)
      (hdest : file.destination = some dest) :
      Advance D old new s (.copy n)
        { s.setFile id (some { file with
            destination := some { dest with offset := dest.offset + n } }) with
          data := Function.update s.data dest.inode
            ((s.data dest.inode).write dest.offset (content.read total n))
          pc := .copying id content (total + n) }
  | unhookShared {id} (hpc : s.pc = .copied id) :
      Advance D old new s .unhook { s with pc := .unhooked id }
  | unhook {id file} (hpc : s.pc = .copied id) (hfile : s.heap id = some file) :
      Advance D old new s .unhook
        { s.setFile id (some { file with destination := none }) with pc := .unhooked id }
  | releaseShared {id file} (hpc : s.pc = .unhooked id) (hfile : s.heap id = some file)
      (hmore : 1 < file.references) :
      Advance D old new s .release
        { s.setFile id (some { file with references := file.references - 1 }) with pc := .loop }
  | releaseLast {id file} (hpc : s.pc = .unhooked id) (hfile : s.heap id = some file) :
      Advance D old new s .release
        { (s.remove file.name).setFile id none with pc := .loop }
  | rename {fs} (hactive : s.active = true) (hmover : s.mover = .idle)
      (hfs : s.fs.renameFile (components old) (components new) = some fs) :
      Advance D old new s .rename { s with fs := fs, mover := .renamed }
  | ignore (hactive : s.active = true) (hmover : s.mover = .renamed)
      (hout : D.isPrefixOfRealpath old = false ∨ D.isPrefixOfRealpath new = false) :
      Advance D old new s .capture { s with mover := .done }
  | refuseOld {oldDest newDest id rest file} (hactive : s.active = true)
      (hmover : s.mover = .renamed) (hcapt : Captures D old new oldDest newDest)
      (htable : s.table (components old) = id :: rest) (hfile : s.heap id = some file)
      (hdest : file.destination = none) (href : Refuses s oldDest) :
      Advance D old new s .capture
        { s.setFile id (some { file with references := file.references + 1 }) with mover := .done }
  | refuseNew {oldDest newDest} (hactive : s.active = true) (hmover : s.mover = .renamed)
      (hcapt : Captures D old new oldDest newDest) (htable : s.table (components old) = [])
      (href : Refuses s oldDest) :
      Advance D old new s .capture
        { s.put s.files ⟨components old, 1, none⟩ with files := s.files + 1, mover := .done }
  | moveOld {oldDest newDest id rest file s₁ dest s₂} (hactive : s.active = true)
      (hmover : s.mover = .renamed) (hcapt : Captures D old new oldDest newDest)
      (htable : s.table (components old) = id :: rest) (hfile : s.heap id = some file)
      (hprov : Provides s file oldDest s₁ dest)
      (hmove : s₁.renameBackup dest.path newDest = .ok s₂) :
      Advance D old new s .capture
        { (s₂.remove (components old)).put id ⟨components new, file.references,
            some { dest with path := newDest }⟩ with mover := .pushing newDest }
  | moveNew {oldDest newDest s₁ dest s₂} (hactive : s.active = true)
      (hmover : s.mover = .renamed) (hcapt : Captures D old new oldDest newDest)
      (htable : s.table (components old) = [])
      (hprov : Provides s ⟨components old, 1, none⟩ oldDest s₁ dest)
      (hmove : s₁.renameBackup dest.path newDest = .ok s₂) :
      Advance D old new s .capture { s₂ with files := s.files + 1, mover := .pushing newDest }
  | push {entry} (hmover : s.mover = .pushing entry) :
      Advance D old new s .push { s with todo := s.todo ++ [entry], mover := .done }
  | endSession {r} (hpc : s.pc = .returned r) (hmover : ∀ entry, s.mover ≠ .pushing entry)
      (hactive : s.active = true) :
      Advance D old new s .endSession { s with active := false }

section

variable {D : DirectorySet} {old new : Path} {s s' s₁ s₂ : State} {k l name : List Path}
  {id inode : Nat} {file : SourceFile}

/-! ## The parts of the steps -/

theorem errno_ne_zero (e : FsError) : e.errno ≠ 0 := by
  cases e <;> decide

theorem failed_of_errno {e : FsError} (h : s.pc = .returned e.errno) : Failed s :=
  Or.inr ⟨_, errno_ne_zero e, h⟩

theorem mkdir_cases (h : s.mkdir k = .ok s') : s' = s ∨ s.backup k = none ∧
    s' = { s with backup := Function.update s.backup k (some .directory) } := by
  rw [State.mkdir] at h
  split at h
  · cases h
    exact Or.inl rfl
  · rename_i hnone
    split at h
    · cases h
      exact Or.inr ⟨not_not.mp hnone, rfl⟩
    · cases h

theorem openCreate_cases (h : s.openCreate k = .ok (s', inode)) :
    s.backup k = some (.file inode) ∧ s' = s ∨ s.backup k = none ∧ inode = s.inodes ∧
      s' = { s with
        backup := Function.update s.backup k (some (.file s.inodes))
        data := Function.update s.data s.inodes .empty
        inodes := s.inodes + 1 } := by
  rw [State.openCreate] at h
  split at h
  · rename_i i hk
    cases h
    exact Or.inl ⟨hk, rfl⟩
  · cases h
  · rename_i hk
    split at h
    · cases h
      exact Or.inr ⟨hk, rfl, rfl⟩
    · cases h

theorem renameBackup_cases (h : s.renameBackup k l = .ok s') :
    ∃ inode, s.backup k = some (.file inode) ∧ s.backup l ≠ some .directory ∧ s' = { s with
      backup := Function.update (Function.update s.backup k none) l (some (.file inode)) } := by
  rw [State.renameBackup] at h
  split at h
  · rename_i i hk
    split at h
    · cases h
    · rename_i hl
      split at h
      · cases h
        exact ⟨i, hk, hl, rfl⟩
      · cases h
  · cases h

/-! ## The files of the backup beside the file table -/

/-- The same with another file table. -/
def State.withTable (s : State) (heap : Nat → Option SourceFile) (table : List Path → List Nat)
    (files : Nat) : State := { s with heap := heap, table := table, files := files }

variable {heap heap' : Nat → Option SourceFile} {table table' : List Path → List Nat}
  {files files' : Nat}

@[simp] theorem withTable_withTable : (s.withTable heap table files).withTable heap' table' files' =
    s.withTable heap' table' files' := rfl

theorem withTable_backup : (s.withTable heap table files).backup = s.backup := rfl

theorem openCreate_withTable : (s.withTable heap table files).openCreate k =
    (s.openCreate k).map fun x => (x.1.withTable heap table files, x.2) := by
  rw [State.openCreate, State.openCreate, withTable_backup]
  split
  · rfl
  · rfl
  · rw [apply_ite (Except.map _)]
    rfl

theorem renameBackup_withTable : (s.withTable heap table files).renameBackup k l =
    (s.renameBackup k l).map fun x => x.withTable heap table files := by
  rw [State.renameBackup, State.renameBackup, withTable_backup]
  split
  · rw [apply_ite (Except.map _), apply_ite (Except.map _)]
    rfl
  · rfl

/-- The two states differ in the backup only. -/
structure OnlyBackup (s s' : State) : Prop where
  fs : s'.fs = s.fs
  heap : s'.heap = s.heap
  table : s'.table = s.table
  files : s'.files = s.files
  index : s'.index = s.index
  todo : s'.todo = s.todo
  pc : s'.pc = s.pc
  mover : s'.mover = s.mover
  active : s'.active = s.active
  error : s'.error = s.error

theorem OnlyBackup.rfl' : OnlyBackup s s := ⟨rfl, rfl, rfl, rfl, rfl, rfl, rfl, rfl, rfl, rfl⟩

theorem OnlyBackup.trans (h : OnlyBackup s s₁) (h' : OnlyBackup s₁ s₂) : OnlyBackup s s₂ :=
  ⟨h'.fs.trans h.fs, h'.heap.trans h.heap, h'.table.trans h.table, h'.files.trans h.files,
    h'.index.trans h.index, h'.todo.trans h.todo, h'.pc.trans h.pc, h'.mover.trans h.mover,
    h'.active.trans h.active, h'.error.trans h.error⟩

theorem openCreate_only (h : s.openCreate k = .ok (s', inode)) : OnlyBackup s s' := by
  obtain ⟨-, rfl⟩ | ⟨-, -, rfl⟩ := openCreate_cases h
  · exact .rfl'
  · exact ⟨rfl, rfl, rfl, rfl, rfl, rfl, rfl, rfl, rfl, rfl⟩

theorem renameBackup_only (h : s.renameBackup k l = .ok s') : OnlyBackup s s' := by
  obtain ⟨_, -, -, rfl⟩ := renameBackup_cases h
  exact ⟨rfl, rfl, rfl, rfl, rfl, rfl, rfl, rfl, rfl, rfl⟩

theorem of_renameBackup_withTable
    (h : (s.withTable heap table files).renameBackup k l = .ok s') :
    ∃ s₂, s.renameBackup k l = .ok s₂ ∧ s' = s₂.withTable heap table files := by
  rw [renameBackup_withTable] at h
  cases hs : s.renameBackup k l with
  | error e =>
    rw [hs] at h
    cases h
  | ok s₂ =>
    rw [hs] at h
    cases h
    exact ⟨s₂, rfl, rfl⟩

variable {dest : DestinationFile}

theorem Provides.only (h : Provides s file k s₁ dest) : OnlyBackup s s₁ := by
  obtain ⟨-, rfl⟩ | ⟨-, inode, hopen, -⟩ := h
  · exact .rfl'
  · exact openCreate_only hopen

theorem Provides.of_withTable {f f' : SourceFile} (hdest : f'.destination = f.destination)
    (h : Provides (s.withTable heap table files) f' k s' dest) :
    ∃ s₁, Provides s f k s₁ dest ∧ s' = s₁.withTable heap table files := by
  obtain ⟨hsome, rfl⟩ | ⟨hnone, inode, hopen, hd⟩ := h
  · exact ⟨s, Or.inl ⟨hdest ▸ hsome, rfl⟩, rfl⟩
  · rw [openCreate_withTable] at hopen
    cases hs : s.openCreate k with
    | error e =>
      rw [hs] at hopen
      cases hopen
    | ok x =>
      rw [hs] at hopen
      cases hopen
      exact ⟨x.1, Or.inr ⟨hdest ▸ hnone, x.2, hs, hd⟩, rfl⟩

theorem Refuses.of_withTable (h : Refuses (s.withTable heap table files) k) : Refuses s k := by
  obtain ⟨e, he⟩ := h
  rw [openCreate_withTable] at he
  cases hs : s.openCreate k with
  | error e' => exact ⟨e', hs⟩
  | ok x =>
    rw [hs] at he
    cases he

theorem tryToCreate_cases (hfile : s.heap id = some file)
    (h : s.tryToCreateDestinationFile id k = .ok s') : ∃ s₁ dest, Provides s file k s₁ dest ∧
      s' = s₁.setFile id (some { file with destination := some dest }) := by
  rw [State.tryToCreateDestinationFile, hfile] at h
  dsimp only at h
  split at h
  · rename_i d hd
    cases h
    refine ⟨s, d, Or.inl ⟨hd, rfl⟩, ?_⟩
    have hsame : ({ file with destination := some d } : SourceFile) = file := by
      rw [← hd]
    rw [State.setFile, hsame, ← hfile, Function.update_eq_self]
  · rename_i hd
    split at h
    · rename_i s₁ inode hopen
      cases h
      exact ⟨s₁, _, Or.inr ⟨hd, inode, hopen, rfl⟩, rfl⟩
    · cases h

theorem tryToCreate_error {e : FsError} (hfile : s.heap id = some file)
    (h : s.tryToCreateDestinationFile id k = .error e) :
    file.destination = none ∧ Refuses s k := by
  rw [State.tryToCreateDestinationFile, hfile] at h
  dsimp only at h
  split at h
  · cases h
  · rename_i hd
    split at h
    · cases h
    · rename_i e' hopen
      exact ⟨hd, e', hopen⟩

/-- `file_hash_table::rename` returns `0`. -/
theorem tableRename_cases (hfile : s.heap id = some file) (hdest : file.destination = some dest)
    (h : tableRename s id name l = (s', none)) : ∃ s₂, s.renameBackup dest.path l = .ok s₂ ∧
      s' = (s₂.remove file.name).put id
        ⟨name, file.references, some { dest with path := l }⟩ := by
  rw [tableRename, hfile] at h
  dsimp only at h
  rw [hdest] at h
  dsimp only at h
  split at h
  · rename_i s₃ hs
    obtain ⟨s₂, hmove, rfl⟩ := of_renameBackup_withTable (s := s) hs
    have honly := renameBackup_only hmove
    refine ⟨s₂, hmove, ?_⟩
    cases h
    rw [State.remove, honly.table, ← honly.heap, ← honly.files]
    rfl
  · cases h

/-- The reference that was taken for the rename is given back. -/
theorem tryToRemove_put_shared (h : 1 < file.references) : (s.put id file).tryToRemove id =
    s.put id { file with references := file.references - 1 } := by
  have hfile : (s.put id file).heap id = some file := Function.update_self _ _ _
  rw [State.tryToRemove, hfile]
  dsimp only
  rw [if_neg (Nat.not_le.mpr h), State.put, State.put, State.setFile, State.setFile]
  dsimp only [State.setFile]
  rw [Function.update_idem]

/-- The source file was there for the rename only. -/
theorem tryToRemove_put_last (h : file.references ≤ 1) : (s.put id file).tryToRemove id =
    s.withTable (Function.update s.heap id none) s.table s.files := by
  have hfile : (s.put id file).heap id = some file := Function.update_self _ _ _
  have htable : (s.put id file).table file.name = id :: s.table file.name :=
    Function.update_self _ _ _
  rw [State.tryToRemove, hfile]
  dsimp only
  rw [if_pos h, State.remove, htable, List.tail_cons, State.put, State.setFile, State.setFile]
  dsimp only
  rw [Function.update_idem, Function.update_idem, Function.update_eq_self]
  rfl

/-- Only the last entry of a source file counts. -/
theorem put_withTable {file' file'' : Option SourceFile} (hheap : s.heap = heap)
    (htable : s.table = table) (hfiles : s.files = files) :
    ((s.withTable (Function.update (Function.update heap id file') id file'') table files).remove
      name).put id file = (s.remove name).put id file := by
  subst hheap htable hfiles
  rw [State.put, State.put, State.setFile, State.setFile]
  dsimp only [State.remove, State.withTable]
  rw [Function.update_idem, Function.update_idem]

theorem Consistent.heap_files (hC : Consistent s) : s.heap s.files = none := by
  cases hfile : s.heap s.files with
  | none => rfl
  | some file => exact absurd (hC.fresh s.files file hfile) (Nat.lt_irrefl _)

/-- A source file that was not in use before and is no longer in use leaves no trace. -/
theorem remove_withTable (name : List Path) (files : Nat) (file' file'' : Option SourceFile)
    (hheap : s.heap = heap)
    (htable : s.table = table) (hid : heap id = none) :
    (((s.withTable (Function.update (Function.update heap id file') id file'')
      (Function.update table name (id :: table name)) files).remove name).withTable
        (Function.update (Function.update (Function.update heap id file') id file'') id none)
        (Function.update (Function.update table name (id :: table name)) name
          (Function.update table name (id :: table name) name).tail) files) =
      { s with files := files } := by
  subst hheap htable
  dsimp only [State.withTable, State.remove]
  rw [Function.update_idem, Function.update_idem, Function.update_idem, Function.update_self,
    List.tail_cons, Function.update_eq_self, ← hid, Function.update_eq_self]

/-! ## The capture -/

theorem advance_renameLocked {oldDest newDest : List Path} (hC : Consistent s)
    (hactive : s.active = true) (hmover : s.mover = .renamed)
    (hcapt : Captures D old new oldDest newDest)
    (h : renameLocked s (components old) (components new) oldDest newDest = s')
    (hok : ¬ Failed s') : Advance D old new s .capture s' := by
  cases htable : s.table (components old) with
  | cons id rest =>
    obtain ⟨file, hfile, hname⟩ :=
      hC.named (components old) id (by rw [htable]; exact List.mem_cons_self)
    have hget : s.getOrCreate (components old) =
        (s.setFile id (some { file with references := file.references + 1 }), id) := by
      rw [State.getOrCreate, htable]
      dsimp only
      rw [hfile]
    rw [renameLocked, hget] at h
    have hfile' : (s.setFile id (some { file with references := file.references + 1 })).heap id =
        some { file with references := file.references + 1 } := Function.update_self _ _ _
    split at h
    · rename_i e he
      obtain ⟨hdest, href⟩ := tryToCreate_error hfile' he
      rw [← h]
      exact .refuseOld hactive hmover hcapt htable hfile hdest (Refuses.of_withTable (s := s) href)
    · rename_i s₀ hs₀
      obtain ⟨s₁, dest, hprov', rfl⟩ := tryToCreate_cases hfile' hs₀
      obtain ⟨s₁, hprov, rfl⟩ := Provides.of_withTable (s := s) (f := file) rfl hprov'
      split at h
      · rename_i s₃ hren
        obtain ⟨s₂, hmove', rfl⟩ := tableRename_cases (Function.update_self _ _ _) rfl hren
        obtain ⟨s₂, hmove, rfl⟩ := of_renameBackup_withTable (s := s₁) hmove'
        have honly := hprov.only.trans (renameBackup_only hmove)
        rw [tryToRemove_put_shared (Nat.lt_add_of_pos_left (hC.counted id file hfile))] at h
        have hend := Advance.moveOld hactive hmover hcapt htable hfile hprov hmove
        rw [← put_withTable honly.heap honly.table honly.files, ← hname] at hend
        rw [← h]
        exact hend
      · rename_i s₃ e hren
        exact absurd (Or.inl (by rw [← h]; exact Option.some_ne_none e)) hok
  | nil =>
    have hget : s.getOrCreate (components old) =
        ({ s.put s.files ⟨components old, 1, none⟩ with files := s.files + 1 }, s.files) := by
      rw [State.getOrCreate, htable]
    rw [renameLocked, hget] at h
    have hfile' : ({ s.put s.files ⟨components old, 1, none⟩ with files := s.files + 1 } :
        State).heap s.files = some ⟨components old, 1, none⟩ := Function.update_self _ _ _
    split at h
    · rename_i e he
      obtain ⟨-, href⟩ := tryToCreate_error hfile' he
      rw [← h]
      exact .refuseNew hactive hmover hcapt htable (Refuses.of_withTable (s := s) href)
    · rename_i s₀ hs₀
      obtain ⟨s₁, dest, hprov', rfl⟩ := tryToCreate_cases hfile' hs₀
      obtain ⟨s₁, hprov, rfl⟩ :=
        Provides.of_withTable (s := s) (f := ⟨components old, 1, none⟩) rfl hprov'
      split at h
      · rename_i s₃ hren
        obtain ⟨s₂, hmove', rfl⟩ := tableRename_cases (Function.update_self _ _ _) rfl hren
        obtain ⟨s₂, hmove, rfl⟩ := of_renameBackup_withTable (s := s₁) hmove'
        have honly := hprov.only.trans (renameBackup_only hmove)
        rw [tryToRemove_put_last (Nat.le_refl 1)] at h
        have hend := Advance.moveNew hactive hmover hcapt htable hprov hmove
        rw [← h]
        have hstate :=
          remove_withTable (components old) (s.files + 1) (some ⟨components old, 1, none⟩)
          (some ⟨components old, 1, some dest⟩) honly.heap honly.table hC.heap_files
        have hm := congrArg (fun x : State => { x with mover := Mover.pushing newDest }) hstate
        rw [← hm] at hend
        exact hend
      · rename_i s₃ e hren
        exact absurd (Or.inl (by rw [← h]; exact Option.some_ne_none e)) hok

theorem advance_capture (hC : Consistent s) (hactive : s.active = true)
    (hmover : s.mover = .renamed) (h : captureRename D s old new = s') (hok : ¬ Failed s') :
    Advance D old new s .capture s' := by
  rw [captureRename] at h
  split at h
  · rename_i hboth
    split at h
    · rename_i p q hp hq
      exact advance_renameLocked hC hactive hmover ⟨p, q, hp, hq, rfl, rfl⟩ h hok
    · rename_i hnone
      obtain ⟨p, hp⟩ := D.translate_of_prefix hboth.1
      obtain ⟨q, hq⟩ := D.translate_of_prefix hboth.2
      exact absurd hq (hnone p q hp)
  · rename_i hout
    rw [not_and_or, Bool.not_eq_true, Bool.not_eq_true] at hout
    rw [← h]
    exact .ignore hactive hmover hout

/-! ## The copier -/

variable {a : Action} {d : Path × Path} {rel : List Path} {todo : List (List Path)}

theorem advance_pop (hpc : s.pc = .loop) (htodo : s.todo = rel :: todo)
    (hd : D.dirs[s.index]? = some d)
    (h : copyFullPath D { s with todo := todo } d.1 d.2 rel = s') (hok : ¬ Failed s') :
    Advance D old new s .pop s' := by
  rw [copyFullPath] at h
  split at h
  · rename_i hex
    rw [← h]
    exact .exclude hpc htodo hd hex
  · split at h
    · rename_i hnode
      split at h
      · rw [← h]
        exact .vanish hpc htodo hd hnode
      · exact absurd (failed_of_errno (by rw [← h])) hok
    · rename_i content hnode
      rw [← h]
      exact .find hpc htodo hd hnode
    · rename_i hnode
      split at h
      · rename_i s₁ hmkdir
        obtain rfl | ⟨hnew, rfl⟩ := mkdir_cases hmkdir
        · rw [← h]
          exact .scanOld hpc htodo hd hnode
        · rw [← h]
          exact .scanNew hpc htodo hd hnode hnew
      · exact absurd (failed_of_errno (by rw [← h])) hok

theorem advance_attach (hC : Consistent s) (hpc : s.pc = .found rel)
    (hd : D.dirs[s.index]? = some d) : Advance D old new s .attach
      { (s.getOrCreate (components d.1 ++ rel)).1 with
        pc := .attached rel (s.getOrCreate (components d.1 ++ rel)).2 } := by
  cases htable : s.table (components d.1 ++ rel) with
  | cons id rest =>
    obtain ⟨file, hfile, -⟩ := hC.named _ id (by rw [htable]; exact List.mem_cons_self)
    have hget : s.getOrCreate (components d.1 ++ rel) =
        (s.setFile id (some { file with references := file.references + 1 }), id) := by
      rw [State.getOrCreate, htable]
      dsimp only
      rw [hfile]
    rw [hget]
    exact .attachOld hpc hd htable hfile
  | nil =>
    have hget : s.getOrCreate (components d.1 ++ rel) =
        ({ s.put s.files ⟨components d.1 ++ rel, 1, none⟩ with files := s.files + 1 },
          s.files) := by
      rw [State.getOrCreate, htable]
    rw [hget]
    exact .attachNew hpc hd htable

theorem advance_openSource (hpc : s.pc = .attached rel id) (hd : D.dirs[s.index]? = some d)
    (h : openSource s d.1 rel id = s') (hok : ¬ Failed s') :
    Advance D old new s .openSource s' := by
  rw [openSource] at h
  split at h
  · rename_i content hnode
    rw [← h]
    exact .openFile hpc hd hnode
  · exact absurd (failed_of_errno (by rw [← h])) hok
  · rename_i hnode
    rw [← h]
    exact .openGone hpc hd hnode

theorem provideDestination_cases {content : Content} {target : Path}
    (hfile : s.heap id = some file) (h : provideDestination s target rel id content = s')
    (hok : ¬ Failed s') : ∃ s₁ dest, Provides s file (components target ++ rel) s₁ dest ∧
      s' = { s₁.setFile id (some { file with destination := some dest }) with
        pc := .copying id content 0 } := by
  rw [provideDestination] at h
  split at h
  · exact absurd (failed_of_errno (by rw [← h])) hok
  · rename_i s₀ hs₀
    obtain ⟨s₁, dest, hprov, rfl⟩ := tryToCreate_cases hfile hs₀
    have hdest : (s₁.setFile id (some { file with destination := some dest })).destination id =
        some dest := by
      rw [State.destination, State.setFile]
      dsimp only
      rw [Function.update_self, Option.bind_some]
    rw [hdest] at h
    exact ⟨s₁, dest, hprov, h.symm⟩

theorem advance_create (hC : Consistent s) {content : Content} (hpc : s.pc = .opened rel id content)
    (hd : D.dirs[s.index]? = some d) (h : createDestination s d.1 d.2 rel id content = s')
    (hok : ¬ Failed s') : Advance D old new s .create s' := by
  obtain ⟨file, hfile⟩ := hC.held id (by rw [hpc]; rfl)
  rw [createDestination] at h
  split at h
  · rename_i hnode
    obtain ⟨s₁, dest, hprov, rfl⟩ := provideDestination_cases hfile h hok
    exact .create hpc hd hnode hfile hprov
  · rename_i hnode
    rw [← h]
    exact .createGone hpc hd (not_not.mp hnode)

theorem advance_copy {content : Content} {total n : Nat} (hpc : s.pc = .copying id content total)
    (h : copyChunk s id content total n = some s') : Advance D old new s (.copy n) s' := by
  rw [copyChunk] at h
  split at h
  · rename_i hlen
    split at h
    · rename_i hn
      subst hn
      cases h
      have hend := hlen.2.2 rfl
      exact .endOfFile hpc (by omega)
    · rename_i hn
      split at h
      · rename_i file hfile
        split at h
        · rename_i dest hdest
          cases h
          exact .copyChunk hpc hn hlen.2.1 hfile hdest
        · cases h
      · cases h
  · cases h

theorem advance_unhook (hC : Consistent s) (hpc : s.pc = .copied id) :
    Advance D old new s .unhook { s.tryToRemoveDestination id with pc := .unhooked id } := by
  obtain ⟨file, hfile⟩ := hC.held id (by rw [hpc]; rfl)
  rw [State.tryToRemoveDestination, hfile]
  dsimp only
  split
  · exact .unhookShared hpc
  · exact .unhook hpc hfile

theorem advance_release (hC : Consistent s) (hpc : s.pc = .unhooked id) :
    Advance D old new s .release { s.tryToRemove id with pc := .loop } := by
  obtain ⟨file, hfile⟩ := hC.held id (by rw [hpc]; rfl)
  rw [State.tryToRemove, hfile]
  dsimp only
  split
  · exact .releaseLast hpc hfile
  · rename_i hmore
    exact .releaseShared hpc hfile (Nat.not_le.mp hmore)

theorem advance_copier (hC : Consistent s) (h : stepCopier D s a = some s')
    (hok : ¬ Failed s') : Advance D old new s a s' := by
  cases a with
  | next =>
    simp only [stepCopier] at h
    split at h
    · rename_i hpc
      split at h
      · rename_i hlt
        cases h
        exact .startDirectory hpc hlt
      · rename_i hle
        cases h
        exact .finish hpc (Nat.not_lt.mp hle)
    · rename_i hpc
      split at h
      · rename_i htodo
        cases h
        exact .endDirectory hpc htodo
      · cases h
    · cases h
  | pop =>
    simp only [stepCopier] at h
    split at h
    · rename_i rel todo source dest hpc htodo hd
      cases h
      exact advance_pop hpc htodo hd rfl hok
    · cases h
  | list entries =>
    simp only [stepCopier] at h
    split at h
    · rename_i rel required source dest hpc hd
      split at h
      · rename_i hlist
        cases h
        exact .list hpc hd hlist
      · cases h
    · cases h
  | attach =>
    simp only [stepCopier] at h
    split at h
    · rename_i rel source dest hpc hd
      cases h
      exact advance_attach hC hpc hd
    · cases h
  | openSource =>
    simp only [stepCopier] at h
    split at h
    · rename_i rel id source dest hpc hd
      cases h
      exact advance_openSource hpc hd rfl hok
    · cases h
  | create =>
    simp only [stepCopier] at h
    split at h
    · rename_i rel id content source dest hpc hd
      cases h
      exact advance_create hC hpc hd rfl hok
    · cases h
  | copy n =>
    simp only [stepCopier] at h
    split at h
    · rename_i id content total hpc
      exact advance_copy hpc h
    · cases h
  | unhook =>
    simp only [stepCopier] at h
    split at h
    · rename_i id hpc
      cases h
      exact advance_unhook hC hpc
    · cases h
  | release =>
    simp only [stepCopier] at h
    split at h
    · rename_i id hpc
      cases h
      exact advance_release hC hpc
    · cases h
  | fail r =>
    simp only [stepCopier] at h
    split at h
    · cases h
    · split at h
      · cases h
      · rename_i hr
        cases h
        exact absurd (Or.inr ⟨r, hr, rfl⟩) hok
  | _ => cases h

theorem advance_mover (hC : Consistent s) (h : stepMover D old new s a = some s')
    (hok : ¬ Failed s') : Advance D old new s a s' := by
  cases a with
  | rename =>
    simp only [stepMover] at h
    split at h
    · rename_i hidle
      obtain ⟨fs, hfs, rfl⟩ := Option.map_eq_some_iff.mp h
      exact .rename hidle.1 hidle.2 hfs
    · cases h
  | capture =>
    simp only [stepMover] at h
    split at h
    · rename_i hrenamed
      cases h
      exact advance_capture hC hrenamed.1 hrenamed.2 rfl hok
    · cases h
  | push =>
    simp only [stepMover] at h
    split at h
    · rename_i entry hmover
      cases h
      exact .push hmover
    · cases h
  | _ => cases h

/-- What a step does, unless the backup has failed. -/
theorem step_cases (hC : Consistent s) (h : step D old new s a = some s') (hok : ¬ Failed s') :
    Advance D old new s a s' := by
  cases a with
  | endSession =>
    simp only [step] at h
    split at h
    · cases h
    · rename_i r hpc hmover
      split at h
      · rename_i hactive
        cases h
        exact .endSession hpc hmover hactive
      · cases h
    · cases h
  | rename => exact advance_mover hC h hok
  | capture => exact advance_mover hC h hok
  | push => exact advance_mover hC h hok
  | _ => exact advance_copier hC h hok

/-! ## A failed backup stays failed -/

/-- The copier stands where it stood, and no error has been reported. -/
def Beside (s s' : State) : Prop := s'.pc = s.pc ∧ s'.error = s.error

theorem Beside.trans (h : Beside s s₁) (h' : Beside s₁ s₂) : Beside s s₂ :=
  ⟨h'.1.trans h.1, h'.2.trans h.2⟩

end

end TokuBackup.Moves
