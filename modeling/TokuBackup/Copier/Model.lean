import TokuBackup.Convergence.Model
import TokuBackup.DirectorySet
import TokuBackup.DoBackup.Calls
import TokuBackup.Kernel.FileSystem
import TokuBackup.Lib.Machine

/-!
# The copier with the bytes

`backup_session::do_copy` and the copier on a file system, when nothing else changes the file
system or the file table, copying stays enabled and the throttle does not ask for a pause. A
step goes from one outcome that the kernel chooses to the next: the order of a directory
listing, and how many bytes a `read` or a `write` transfers.

Locks have no effect here. What the callbacks are told about the progress is left out.
-/

namespace TokuBackup.Copier

open Kernel Convergence

/-! ## State -/

/-- A `destination_file`: the file it has open and the offset of its descriptor. -/
structure DestinationFile where
  path : List Path
  offset : Nat

structure SourceFile where
  references : Nat
  unlinked : Bool
  destination : Option DestinationFile

/-- What `copy_file_data` works with: the path and the offset of the source descriptor, and
`m_total_written_this_file`. -/
structure Copying where
  source : Path
  offset : Nat
  totalWritten : Nat

inductive Pc where
  /-- The loop of `backup_session::do_copy`. -/
  | next
  /-- The loop of `copier::do_copy`. -/
  | loop
  /-- The loop of `copy_file_data`. -/
  | reading (c : Copying)
  /-- The loop of `copy_file_range`. -/
  | writing (c : Copying) (buf : List UInt8) (n_wrote_this_buf : Nat)
  | returned (r : Int)

structure State where
  fs : Fs
  /-- The source files of the file hash table. -/
  table : Path → Option SourceFile
  /-- The directory of the set that is being copied. -/
  index : Nat
  todo : List Path
  pc : Pc
  /-- Ghost: the entries handed to `copy_stripped_file`, with the directory. -/
  handled : List (Nat × Path)

def start (fs : Fs) (table : Path → Option SourceFile) : State := ⟨fs, table, 0, [], .next, []⟩

inductive Action where
  | next
  /-- Handle the first entry of the todo list; when it is a directory, `entries` is what
  `readdir` returns. -/
  | pop (entries : List Path)
  | read (n : Nat)
  | write (n : Nat)
  /-- A callback or a system call fails with an error that is returned. -/
  | fail (r : Int)

/-! ## The file table -/

namespace State

variable (s : State) (name : Path)

def setFile (file : Option SourceFile) : State :=
  { s with table := Function.update s.table name file }

def getOrCreate : State :=
  match s.table name with
  | some file => s.setFile name (some { file with references := file.references + 1 })
  | none => s.setFile name (some ⟨1, false, none⟩)

/-- `try_to_remove_destination` -/
def tryToRemoveDestination : State :=
  match s.table name with
  | some file =>
    if file.references > 1 then s else s.setFile name (some { file with destination := none })
  | none => s

/-- `try_to_remove` -/
def tryToRemove : State :=
  match s.table name with
  | some file =>
    if file.references - 1 = 0 then s.setFile name none
    else s.setFile name (some { file with references := file.references - 1 })
  | none => s

/-- `try_to_create_destination_file` -/
def tryToCreateDestinationFile (full_path : Path) : Except FsError State :=
  match s.table name with
  | some file =>
    if file.unlinked = true then .ok s
    else if file.destination.isSome then .ok s
    else
      match s.fs.openCreate full_path with
      | .ok fs => .ok ({ s with fs := fs }.setFile name
          (some { file with destination := some ⟨components full_path, 0⟩ }))
      | .error e => .error e
  | none => .ok s

def destination : Option DestinationFile := (s.table name).bind SourceFile.destination

end State

/-! ## Copying -/

/-- The end of `create_destination_and_copy` and of `copy_using_source_info`. -/
def finish (s : State) (source : Path) : State :=
  { ((s.tryToRemoveDestination source).tryToRemove source) with pc := .loop }

/-- `copy_using_source_info` up to the loop of `copy_file_data`. The source has just been found
by `stat`, so that the `open` and the `lstat` find it too. -/
def copyUsingSourceInfo (s : State) (source dest : Path) : State :=
  match (s.getOrCreate source).tryToCreateDestinationFile source dest with
  | .error e => { ((s.getOrCreate source).tryToRemove source) with pc := .returned e.errno }
  | .ok s' =>
    match s'.destination source with
    | none => finish s' source
    | some _ => { s' with pc := .reading ⟨source, 0, 0⟩ }

/-- What `add_dir_entries_to_todo` adds. -/
def dirEntries (file : Path) (entries : List Path) : List Path :=
  (entries.filter fun name => !DoBackup.isDot name).map fun name => file ++ '/' :: name

/-- What `readdir` may return: the names in any order, with or without `.` and `..`. -/
def IsListing (fs : Fs) (l : List Path) (entries : List Path) : Prop :=
  (entries.filter fun name => !DoBackup.isDot name).Perm (fs.names l)

instance (fs : Fs) (l entries : List Path) : Decidable (IsListing fs l entries) :=
  inferInstanceAs (Decidable (List.Perm _ _))

def copyFullPath (D : DirectorySet) (s : State) (source dest file : Path)
    (entries : List Path) : Option State :=
  if D.excludeCopy source then some { s with pc := .loop }
  else
    match s.fs.stat source with
    | .error e => some { s with pc := if e = .enoent then .loop else .returned e.errno }
    | .ok (.regular _) => some (copyUsingSourceInfo s source dest)
    | .ok .directory =>
      if IsListing s.fs (components source) entries then
        match s.fs.mkdir dest with
        | .ok fs => some { s with
            fs := fs, todo := s.todo ++ dirEntries file entries, pc := .loop }
        | .error .eexist => some { s with todo := s.todo ++ dirEntries file entries, pc := .loop }
        | .error e => some { s with pc := .returned e.errno }
      else none

def copyStrippedFile (D : DirectorySet) (s : State) (source dest file : Path)
    (entries : List Path) : Option State :=
  if file = ['.'] then copyFullPath D s source dest [] entries
  else copyFullPath D s (pathcat source file) (pathcat dest file) file entries

/-- `read` of a chunk. At the end of the file the copy is over. -/
def readChunk (s : State) (c : Copying) (n : Nat) : Option State :=
  match s.fs.node (components c.source) with
  | some (.regular content) =>
    if n ≤ bufSize ∧ c.offset + n ≤ content.len ∧ (n = 0 → content.len = c.offset) then
      if n = 0 then some (finish s c.source)
      else some { s with
        pc := .writing { c with offset := c.offset + n } (content.read c.offset n) 0 }
    else none
  | _ => none

/-- `write` of what is left of the chunk. -/
def writeChunk (s : State) (c : Copying) (buf : List UInt8) (n_wrote_this_buf n : Nat) :
    Option State :=
  match s.table c.source with
  | some file =>
    match file.destination with
    | some dest =>
      if 1 ≤ n ∧ n_wrote_this_buf + n ≤ buf.length then
        let c := { c with totalWritten := c.totalWritten + n }
        some ({ s with
            fs := s.fs.write dest.path dest.offset ((buf.drop n_wrote_this_buf).take n)
            pc := if n_wrote_this_buf + n < buf.length then .writing c buf (n_wrote_this_buf + n)
              else .reading c }.setFile c.source
          (some { file with destination := some { dest with offset := dest.offset + n } }))
      else none
    | none => none
  | none => none

/-! ## The machine -/

def step (D : DirectorySet) (s : State) : Action → Option State
  | .next =>
    match s.pc with
    | .next =>
      if s.index < D.dirs.length then some { s with todo := s.todo ++ [['.']], pc := .loop }
      else some { s with pc := .returned 0 }
    | .loop =>
      match s.todo with
      | [] => some { s with index := s.index + 1, pc := .next }
      | _ :: _ => none
    | _ => none
  | .pop entries =>
    match s.pc, s.todo, D.dirs[s.index]? with
    | .loop, file :: todo, some (source, dest) =>
      copyStrippedFile D { s with todo := todo, handled := s.handled ++ [(s.index, file)] }
        source dest file entries
    | _, _, _ => none
  | .read n =>
    match s.pc with
    | .reading c => readChunk s c n
    | _ => none
  | .write n =>
    match s.pc with
    | .writing c buf n_wrote_this_buf => writeChunk s c buf n_wrote_this_buf n
    | _ => none
  | .fail r =>
    if r = 0 then none
    else
      match s.pc with
      | .returned _ => none
      | .reading c => some { (s.tryToRemove c.source) with pc := .returned r }
      | .writing c _ _ => some { (s.tryToRemove c.source) with pc := .returned r }
      | _ => some { s with pc := .returned r }

/-- No callback and no system call fails. -/
def Succeeds (_ : State) : Action → Prop
  | .fail _ => False
  | _ => True

end TokuBackup.Copier
