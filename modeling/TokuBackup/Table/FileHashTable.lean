import TokuBackup.Kernel.Path
import TokuBackup.Lib.Chain
import TokuBackup.Lib.Result

/-!
# The file hash table

`file_hash_table` and the `source_file` objects it links. The objects are allocated on a
heap and refer to each other by pointers; the table's chains run through their `m_next`
members. A pointer that was deleted is not live any more, and using it is a fault.

The hash is a parameter: it stands for `MurmurHash3_x64_128` of the name, its two halves
added. An allocation always succeeds and never reuses a pointer.
-/

namespace TokuBackup.Table

open Kernel Lib

/-! ## Objects -/

abbrev Ptr := Nat

/-- A `destination_file`: which object it is, and its `m_path`. -/
structure DestinationFile where
  id : Nat
  path : Path
  deriving DecidableEq

/-- A `source_file`, without the members that only data calls use. Its name is `none` after
`realpath` failed in `rename`. -/
@[ext]
structure SourceFile where
  fullPath : Option Path
  referenceCount : Nat
  unlinked : Bool
  destinationFile : Option DestinationFile
  deriving DecidableEq

/-- `file_hash_table`, with the `m_next` links of the objects. -/
structure FileHashTable where
  array : Nat → Option Ptr
  size : Nat
  count : Nat
  next : Ptr → Option Ptr

/-- The table, the live source files and the next pointers that `new` returns. -/
structure Files where
  heap : Ptr → Option SourceFile
  fresh : Ptr
  freshDestination : Nat
  table : FileHashTable

/-- What ends the process, or leaves what it does undefined. -/
inductive Fault where
  /-- `check` or `assert` fails. -/
  | check
  /-- A null or deleted object is used. -/
  | pointer
  /-- A chain leads to a deleted object, or around in a circle. -/
  | chain
  deriving DecidableEq

/-- The constructor of the table. -/
def FileHashTable.new : FileHashTable := ⟨fun _ => none, 1, 0, fun _ => none⟩

def Files.new : Files := ⟨fun _ => none, 0, 0, FileHashTable.new⟩

/-- `source_file::name`; `none` also when the object is not live. -/
def Files.name (F : Files) (file : Ptr) : Option Path := (F.heap file).bind SourceFile.fullPath

/-- The destination of a file; `none` also when the object is not live. -/
def Files.dest (F : Files) (file : Ptr) : Option DestinationFile :=
  (F.heap file).bind SourceFile.destinationFile

/-- Put an object, or nothing, where `file` points. -/
def Files.set (F : Files) (file : Ptr) (o : Option SourceFile) : Files :=
  { F with heap := Function.update F.heap file o }

/-- Change the members of a live object. -/
def Files.modify (F : Files) (file : Ptr) (f : SourceFile → SourceFile) : Files :=
  F.set file ((F.heap file).map f)

/-- `new source_file`: no reference, not unlinked, no destination. -/
def Files.allocate (F : Files) (path : Path) : Ptr × Files :=
  (F.fresh, { F.set F.fresh (some ⟨some path, 0, false, none⟩) with fresh := F.fresh + 1 })

/-- `delete`. -/
def Files.delete (F : Files) (file : Ptr) : Files := F.set file none

/-! ## The chains -/

section

variable (hash : Path → Nat)

/-- The chain of bucket `hash_index`, up to the first node that meets `test`. Chains hold
live objects, so they are not longer than the number of objects made so far. -/
def Files.scan (F : Files) (test : Ptr → Option Bool) (hash_index : Nat) :
    Except Fault (Option (Option Ptr × Ptr)) :=
  demand (Lib.scan F.table.next test (F.fresh + 1) none (F.table.array hash_index)) .chain

/-- `strcmp(name, file->name()) == 0`. -/
def Files.named (F : Files) (name : Path) (file : Ptr) : Option Bool :=
  (F.name file).map fun n => decide (n = name)

def Files.get (F : Files) (full_file_path : Path) : Except Fault (Option Ptr) := do
  let found ← F.scan (F.named full_file_path) (hash full_file_path % F.table.size)
  return found.map Prod.snd

instance decidableGet (F : Files) (n : Path) (o : Option Ptr) :
    Decidable (F.get hash n = .ok o) :=
  match h : F.get hash n with
  | .error e => isFalse (by simp)
  | .ok o' => decidable_of_iff (o' = o) (by simp)

/-- Put `file` at the head of chain `hash_index`. -/
def FileHashTable.link (T : FileHashTable) (file : Ptr) (hash_index : Nat) : FileHashTable :=
  { T with
    next := Function.update T.next file (T.array hash_index)
    array := Function.update T.array hash_index (some file) }

/-- The inner loop of `maybe_resize`: move a chain of the old array to the new one. -/
def Files.moveChain (F : Files) : Nat → Option Ptr → FileHashTable → Except Fault FileHashTable
  | 0, _, _ => .error .chain
  | _ + 1, none, T => .ok T
  | fuel + 1, some head, T => do
    let name ← demand (F.name head) .pointer
    F.moveChain fuel (T.next head) (T.link head (hash name % T.size))

/-- The outer loop of `maybe_resize`. -/
def Files.moveChains (F : Files) (old_array : Nat → Option Ptr) :
    List Nat → FileHashTable → Except Fault FileHashTable
  | [], T => .ok T
  | i :: is, T => do
    let T ← F.moveChain hash (F.fresh + 1) (old_array i) T
    F.moveChains old_array is T

def Files.maybeResize (F : Files) : Except Fault Files := do
  let T := F.table
  if T.size < T.count then
    let T ← F.moveChains hash T.array (List.range T.size)
      { T with array := fun _ => none, size := T.size + T.count }
    return { F with table := T }
  else
    return F

/-- It's OK to insert the same file repeatedly. -/
def Files.insert (F : Files) (file : Ptr) (hash_index : Nat) : Except Fault Files := do
  let found ← F.scan
    (fun current => (F.heap current).map fun _ => decide (current = file)) hash_index
  match found with
  | some _ => return F
  | none =>
    let T := F.table.link file hash_index
    { F with table := { T with count := T.count + 1 } }.maybeResize hash

def Files.put (F : Files) (file : Ptr) : Except Fault Files := do
  let name ← demand (F.name file) .pointer
  F.insert hash file (hash name % F.table.size)

/-- `remove`: unlink the first node of the chain that has the file's name. -/
def Files.remove (F : Files) (file : Ptr) : Except Fault Files := do
  let name ← demand (F.name file) .pointer
  let hash_index := hash name % F.table.size
  let T := F.table
  match ← F.scan (F.named name) hash_index with
  | none => return F
  | some (previous, current) =>
    let next := T.next current
    if T.count = 0 then throw .check
    let T := { T with count := T.count - 1 }
    match previous with
    | some previous =>
      return { F with table := { T with next := Function.update T.next previous next } }
    | none => return { F with table := { T with array := Function.update T.array hash_index next } }

/-! ## References and destinations -/

def Files.addReference (F : Files) (file : Ptr) : Files :=
  F.modify file fun f => { f with referenceCount := f.referenceCount + 1 }

/-- `check(m_reference_count>0)`, then the count goes down. -/
def Files.removeReference (F : Files) (file : Ptr) : Except Fault Files := do
  let f ← demand (F.heap file) .pointer
  if f.referenceCount = 0 then throw .check
  return F.modify file fun f => { f with referenceCount := f.referenceCount - 1 }

/-- `try_to_remove_destination`; the close is not checked here. -/
def SourceFile.tryToRemoveDestination (f : SourceFile) : SourceFile :=
  if f.destinationFile = none then f
  else if f.referenceCount > 1 then f
  else { f with destinationFile := none }

def Files.tryToRemoveDestination (F : Files) (file : Ptr) : Except Fault Files := do
  let _ ← demand (F.heap file) .pointer
  return F.modify file SourceFile.tryToRemoveDestination

/-- `try_to_create_destination_file`: an unlinked file gets no destination, an existing one
is kept. `created` says whether the `open` that creates the backup file succeeds; the
result says whether `0` is returned. -/
def Files.tryToCreateDestinationFile (F : Files) (file : Ptr) (full_path : Path) (created : Bool) :
    Except Fault (Bool × Files) := do
  let f ← demand (F.heap file) .pointer
  if f.unlinked then return (true, F)
  if f.destinationFile.isSome then return (true, F)
  if created then
    let d : DestinationFile := ⟨F.freshDestination, full_path⟩
    return (true, { F.modify file fun f => { f with destinationFile := some d } with
      freshDestination := F.freshDestination + 1 })
  else
    return (false, F)

/-! ## Operations under the table's mutex -/

def Files.getOrCreate (F : Files) (file_name : Path) : Except Fault (Ptr × Files) := do
  match ← F.get hash file_name with
  | some source => return (source, F.addReference source)
  | none =>
    let (source, F) := F.allocate file_name
    let F ← F.put hash source
    return (source, F.addReference source)

def Files.tryToRemove (F : Files) (file : Ptr) : Except Fault Files := do
  let F ← F.removeReference file
  let f ← demand (F.heap file) .pointer
  if f.referenceCount = 0 then
    let F ← F.tryToRemoveDestination file
    let F ← F.remove hash file
    return F.delete file
  else
    return F

/-- How the calls inside `rename_locked` end: whether the old destination can be created,
what `realpath` of the new name returns, and whether the destination is renamed. A rename
that fails with `ENOENT` has failed, but has set the destination's path. -/
structure RenameOutcome where
  created : Bool
  realpath : Option Path
  renamed : Bool
  enoent : Bool
  deriving DecidableEq

/-- `file_hash_table::rename`. -/
def Files.rename (F : Files) (target : Ptr) (dest : Path) (o : RenameOutcome) :
    Except Fault (Bool × Files) := do
  let F ← F.remove hash target
  let F := F.modify target fun f => { f with fullPath := o.realpath }
  if o.realpath = none then return (false, F)
  let f ← demand (F.heap target) .pointer
  let d ← demand f.destinationFile .pointer
  let renamed := F.modify target fun f => { f with destinationFile := some { d with path := dest } }
  if o.renamed then
    let F ← renamed.put hash target
    return (true, F)
  else
    return (false, if o.enoent then renamed else F)

/-- `rename_locked`. When the old destination cannot be created, the reference stays. -/
def Files.renameLocked (F : Files) (old_path old_dest dest_path : Path) (o : RenameOutcome) :
    Except Fault (Bool × Files) := do
  let (target, F) ← F.getOrCreate hash old_path
  let (created, F) ← F.tryToCreateDestinationFile target old_dest o.created
  if created then
    let (renamed, F) ← F.rename hash target dest_path o
    let F ← F.tryToRemove hash target
    return (renamed, F)
  else
    return (false, F)

end

end TokuBackup.Table
