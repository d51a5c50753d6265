import TokuBackup.Copier.Tree
import TokuBackup.Kernel.Rename

/-!
# A rename during the copy

The copier on the trees of the directory set, and one `rename` of a regular file by the
application: the real call, then `capture_rename` with the lock on the file table, then the new
entry on the copier's todo list. The session ends when the copier has returned. Every system
call of the copier and every locked section is a step, and either party may take the next one.

Besides the rename the application has files open and changes nothing. The file system that it
sees is kept apart from the backup: no destination lies in a source directory, and neither path
of the rename lies in a destination. In the backup a file is told from its path, for a
destination file stays open when it is renamed.

A path is its components here, and so is an entry of the todo list. `rename` resolves the paths
before anything else, so that `old` and `new` are what `realpath` returns. Copying stays enabled,
and no file has been unlinked.
-/

namespace TokuBackup.Moves

open Kernel

/-! ## State -/

/-- What a path of the backup leads to. -/
inductive Entry where
  | directory
  | file (inode : Nat)
  deriving DecidableEq

/-- A `destination_file`: its path, the file it has open and the offset of its descriptor. -/
structure DestinationFile where
  path : List Path
  inode : Nat
  offset : Nat

structure SourceFile where
  name : List Path
  references : Nat
  destination : Option DestinationFile

/-- Where the copier stands; `file` is the source file it works with. -/
inductive Pc where
  /-- The loop of `backup_session::do_copy`. -/
  | next
  /-- The loop of `copier::do_copy`. -/
  | loop
  /-- A directory is being listed; `required` was in it when it was opened. -/
  | scanning (rel : List Path) (required : List Path)
  /-- `stat` has found a regular file. -/
  | found (rel : List Path)
  /-- `get_or_create_locked` has returned. -/
  | attached (rel : List Path) (file : Nat)
  /-- The source is open. What it holds does not change. -/
  | opened (rel : List Path) (file : Nat) (content : Content)
  /-- The loop of `copy_file_data`, after `total` bytes. -/
  | copying (file : Nat) (content : Content) (total : Nat)
  /-- Before the last locked section of `create_destination_and_copy`. -/
  | copied (file : Nat)
  /-- Before `try_to_remove_locked`. -/
  | unhooked (file : Nat)
  | returned (r : Int)

/-- Where the call of `rename` stands. -/
inductive Mover where
  | idle
  /-- The real call has returned. -/
  | renamed
  /-- `rename_locked` has returned `0`. -/
  | pushing (entry : List Path)
  | done
  deriving DecidableEq

structure State where
  /-- What the application sees. -/
  fs : Fs
  backup : List Path → Option Entry
  data : Nat → Content
  /-- The next file of the backup. -/
  inodes : Nat
  heap : Nat → Option SourceFile
  /-- The next source file. -/
  files : Nat
  /-- The source files of each name in the file hash table, the last one put first. -/
  table : List Path → List Nat
  /-- The directory of the set that is being copied. -/
  index : Nat
  todo : List (List Path)
  pc : Pc
  mover : Mover
  /-- The session has not ended. -/
  active : Bool
  /-- What the capture has reported. -/
  error : Option FsError

inductive Action where
  | next
  /-- Handle the first entry of the todo list, up to the listing or the copying. -/
  | pop
  /-- `readdir` has returned these, besides `.` and `..`. -/
  | list (entries : List Path)
  | attach
  | openSource
  /-- The section with `lstat` and `try_to_create_destination_file`. -/
  | create
  /-- Copy `n` bytes; none at the end of the source. -/
  | copy (n : Nat)
  | unhook
  | release
  /-- A callback or a system call of the copier fails with an error that is returned. -/
  | fail (r : Int)
  | rename
  | capture
  | push
  | endSession

/-! ## The backup's files -/

namespace State

variable (s : State)

/-- `mkdir`; a directory that is there already is none too much. -/
def mkdir (k : List Path) : Except FsError State :=
  if s.backup k ≠ none then .ok s
  else if s.backup k.dropLast = some .directory then
    .ok { s with backup := Function.update s.backup k (some .directory) }
  else .error .enoent

/-- `open` with `O_RDWR | O_CREAT`. -/
def openCreate (k : List Path) : Except FsError (State × Nat) :=
  match s.backup k with
  | some (.file inode) => .ok (s, inode)
  | some .directory => .error .eisdir
  | none =>
    if s.backup k.dropLast = some .directory then
      .ok ({ s with
        backup := Function.update s.backup k (some (.file s.inodes))
        data := Function.update s.data s.inodes .empty
        inodes := s.inodes + 1 }, s.inodes)
    else .error .enoent

/-- `rename` of a file of the backup. -/
def renameBackup (k l : List Path) : Except FsError State :=
  match s.backup k with
  | some (.file inode) =>
    if s.backup l = some .directory then .error .eisdir
    else if s.backup l.dropLast = some .directory then
      .ok { s with
        backup := Function.update (Function.update s.backup k none) l (some (.file inode)) }
    else .error .enoent
  | _ => .error .enoent

/-! ## The file table -/

def setFile (id : Nat) (file : Option SourceFile) : State :=
  { s with heap := Function.update s.heap id file }

def put (id : Nat) (file : SourceFile) : State :=
  { s.setFile id (some file) with
    table := Function.update s.table file.name (id :: s.table file.name) }

/-- `file_hash_table::remove`: the first source file of the name goes. -/
def remove (name : List Path) : State :=
  { s with table := Function.update s.table name (s.table name).tail }

def getOrCreate (name : List Path) : State × Nat :=
  match s.table name with
  | id :: _ =>
    match s.heap id with
    | some file => (s.setFile id (some { file with references := file.references + 1 }), id)
    | none => (s, id)
  | [] => ({ s.put s.files ⟨name, 1, none⟩ with files := s.files + 1 }, s.files)

def tryToRemoveDestination (id : Nat) : State :=
  match s.heap id with
  | some file =>
    if file.references > 1 then s else s.setFile id (some { file with destination := none })
  | none => s

def tryToRemove (id : Nat) : State :=
  match s.heap id with
  | some file =>
    if file.references ≤ 1 then (s.remove file.name).setFile id none
    else s.setFile id (some { file with references := file.references - 1 })
  | none => s

def tryToCreateDestinationFile (id : Nat) (full_path : List Path) : Except FsError State :=
  match s.heap id with
  | some file =>
    match file.destination with
    | some _ => .ok s
    | none =>
      match s.openCreate full_path with
      | .ok (s', inode) =>
        .ok (s'.setFile id (some { file with destination := some ⟨full_path, inode, 0⟩ }))
      | .error e => .error e
  | none => .ok s

def destination (id : Nat) : Option DestinationFile := (s.heap id).bind SourceFile.destination

end State

/-! ## The capture -/

/-- `file_hash_table::rename`. When `destination_file::rename` fails, the target is not put back
into the table; the path of the destination is changed all the same when the error is
`ENOENT`. -/
def tableRename (s : State) (target : Nat) (new_source_name dest : List Path) :
    State × Option FsError :=
  match s.heap target with
  | some file =>
    match file.destination with
    | some dest_file =>
      match (s.remove file.name).renameBackup dest_file.path dest with
      | .ok s' => (s'.put target ⟨new_source_name, file.references,
          some { dest_file with path := dest }⟩, none)
      | .error e => ((s.remove file.name).setFile target (some ⟨new_source_name, file.references,
          some { dest_file with path := if e = .enoent then dest else dest_file.path }⟩), some e)
    | none => (s, none)
  | none => (s, none)

/-- `rename_locked`, and what `capture_rename` does with its result. -/
def renameLocked (s : State) (old_path new_path old_dest dest_path : List Path) : State :=
  match (s.getOrCreate old_path).1.tryToCreateDestinationFile
    (s.getOrCreate old_path).2 old_dest with
  | .error _ => { (s.getOrCreate old_path).1 with mover := .done }
  | .ok s' =>
    match tableRename s' (s.getOrCreate old_path).2 new_path dest_path with
    | (s'', none) => { s''.tryToRemove (s.getOrCreate old_path).2 with mover := .pushing dest_path }
    | (s'', some e) =>
      { s''.tryToRemove (s.getOrCreate old_path).2 with error := some e, mover := .done }

/-- `capture_rename`: a file that moves into the source directories, or out of them, is left
alone. -/
def captureRename (D : DirectorySet) (s : State) (full_old_path full_new_path : Path) : State :=
  if D.isPrefixOfRealpath full_old_path = true ∧ D.isPrefixOfRealpath full_new_path = true then
    match D.translatePrefixOfRealpath full_old_path, D.translatePrefixOfRealpath full_new_path with
    | some old_dest, some dest_path =>
      renameLocked s (components full_old_path) (components full_new_path) (components old_dest)
        (components dest_path)
    | _, _ => { s with mover := .done }
  else { s with mover := .done }

/-! ## The copier -/

/-- `copy_full_path` up to the listing or the copying. -/
def copyFullPath (D : DirectorySet) (s : State) (source dest : Path) (rel : List Path) : State :=
  if D.excludeCopy (Copier.entryPath source rel) then { s with pc := .loop }
  else
    match s.fs.node (components source ++ rel) with
    | none =>
      if s.fs.absence (components source ++ rel) = .enoent then { s with pc := .loop }
      else { s with pc := .returned (s.fs.absence (components source ++ rel)).errno }
    | some (.regular _) => { s with pc := .found rel }
    | some .directory =>
      match s.mkdir (components dest ++ rel) with
      | .ok s' => { s' with pc := .scanning rel (s.fs.names (components source ++ rel)) }
      | .error e => { s with pc := .returned e.errno }

/-- What `readdir` may return for a directory: a name that is there all the time is returned, and
one that comes or goes may be. -/
def IsListing (fs : Fs) (l required entries : List Path) : Prop :=
  entries.Nodup ∧ (∀ n ∈ required, fs.node (l ++ [n]) ≠ none → n ∈ entries) ∧
    ∀ n ∈ entries, n ∈ required ∨ fs.node (l ++ [n]) ≠ none

instance decidableExists (fs : Fs) (l : List Path) : Decidable (fs.node l ≠ none) :=
  decidable_of_iff ((fs.node l).isSome = true) Option.isSome_iff_ne_none

instance (fs : Fs) (l required entries : List Path) :
    Decidable (IsListing fs l required entries) :=
  inferInstanceAs (Decidable (entries.Nodup ∧ (∀ n ∈ required, fs.node (l ++ [n]) ≠ none →
    n ∈ entries) ∧ ∀ n ∈ entries, n ∈ required ∨ fs.node (l ++ [n]) ≠ none))

/-- `open` of the source in `copy_regular_file`. -/
def openSource (s : State) (source : Path) (rel : List Path) (file : Nat) : State :=
  match s.fs.node (components source ++ rel) with
  | some (.regular content) => { s with pc := .opened rel file content }
  | some .directory => { s with pc := .returned FsError.eisdir.errno }
  | none => { s with pc := .unhooked file }

/-- What the first locked section of `create_destination_and_copy` does after `lstat` has found
the source. -/
def provideDestination (s : State) (dest : Path) (rel : List Path) (file : Nat)
    (content : Content) : State :=
  match s.tryToCreateDestinationFile file (components dest ++ rel) with
  | .error e => { s with pc := .returned e.errno }
  | .ok s' =>
    match s'.destination file with
    | some _ => { s' with pc := .copying file content 0 }
    | none => { s' with pc := .copied file }

/-- The first locked section of `create_destination_and_copy`. -/
def createDestination (s : State) (source dest : Path) (rel : List Path) (file : Nat)
    (content : Content) : State :=
  if s.fs.node (components source ++ rel) ≠ none then provideDestination s dest rel file content
  else { s with pc := .copied file }

/-- A round of `copy_file_data`. -/
def copyChunk (s : State) (id : Nat) (content : Content) (total n : Nat) : Option State :=
  if n ≤ Convergence.bufSize ∧ total + n ≤ content.len ∧ (n = 0 → content.len ≤ total) then
    if n = 0 then some { s with pc := .copied id }
    else
      match s.heap id with
      | some file =>
        match file.destination with
        | some dest => some { s.setFile id (some { file with
              destination := some { dest with offset := dest.offset + n } }) with
            data := Function.update s.data dest.inode
              ((s.data dest.inode).write dest.offset (content.read total n))
            pc := .copying id content (total + n) }
        | none => none
      | none => none
  else none

/-! ## The machine -/

def stepCopier (D : DirectorySet) (s : State) : Action → Option State
  | .next =>
    match s.pc with
    | .next =>
      if s.index < D.dirs.length then some { s with todo := s.todo ++ [[]], pc := .loop }
      else some { s with pc := .returned 0 }
    | .loop =>
      match s.todo with
      | [] => some { s with index := s.index + 1, pc := .next }
      | _ :: _ => none
    | _ => none
  | .pop =>
    match s.pc, s.todo, D.dirs[s.index]? with
    | .loop, rel :: todo, some (source, dest) =>
      some (copyFullPath D { s with todo := todo } source dest rel)
    | _, _, _ => none
  | .list entries =>
    match s.pc, D.dirs[s.index]? with
    | .scanning rel required, some (source, _) =>
      if IsListing s.fs (components source ++ rel) required entries then
        some { s with todo := s.todo ++ entries.map fun n => rel ++ [n], pc := .loop }
      else none
    | _, _ => none
  | .attach =>
    match s.pc, D.dirs[s.index]? with
    | .found rel, some (source, _) =>
      some { (s.getOrCreate (components source ++ rel)).1 with
        pc := .attached rel (s.getOrCreate (components source ++ rel)).2 }
    | _, _ => none
  | .openSource =>
    match s.pc, D.dirs[s.index]? with
    | .attached rel file, some (source, _) => some (openSource s source rel file)
    | _, _ => none
  | .create =>
    match s.pc, D.dirs[s.index]? with
    | .opened rel file content, some (source, dest) =>
      some (createDestination s source dest rel file content)
    | _, _ => none
  | .copy n =>
    match s.pc with
    | .copying file content total => copyChunk s file content total n
    | _ => none
  | .unhook =>
    match s.pc with
    | .copied file => some { s.tryToRemoveDestination file with pc := .unhooked file }
    | _ => none
  | .release =>
    match s.pc with
    | .unhooked file => some { s.tryToRemove file with pc := .loop }
    | _ => none
  | .fail r =>
    match s.pc with
    | .returned _ => none
    | _ => if r = 0 then none else some { s with pc := .returned r }
  | _ => none

def stepMover (D : DirectorySet) (old new : Path) (s : State) : Action → Option State
  | .rename =>
    if s.active = true ∧ s.mover = .idle then
      (s.fs.renameFile (components old) (components new)).map fun fs =>
        { s with fs := fs, mover := .renamed }
    else none
  | .capture =>
    if s.active = true ∧ s.mover = .renamed then some (captureRename D s old new) else none
  | .push =>
    match s.mover with
    | .pushing entry => some { s with todo := s.todo ++ [entry], mover := .done }
    | _ => none
  | _ => none

def step (D : DirectorySet) (old new : Path) (s : State) : Action → Option State
  | .endSession =>
    match s.pc, s.mover with
    | .returned _, .pushing _ => none
    | .returned _, _ => if s.active = true then some { s with active := false } else none
    | _, _ => none
  | .rename => stepMover D old new s .rename
  | .capture => stepMover D old new s .capture
  | .push => stepMover D old new s .push
  | a => stepCopier D s a

end TokuBackup.Moves
