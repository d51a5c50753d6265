import TokuBackup.Convergence.Main
import TokuBackup.Copier.Main

/-!
# A tree under capture and copy

`backup_session::do_copy` and the copier walk over the source trees while the application
writes to the files in them. The names in the trees do not change; `tree` has them, and what a
regular file holds is in its own machine, that of `Convergence`, which has the file's fds, the
calls on it, its destination and the copier's pass over it. Any step of a call may come between
any two steps of the walk or of a pass.

Fds and threads are numbered file by file, so that one number may be in use in several files;
this allows more runs than there are. The calls are those on files whose `open` was captured,
that is, on regular files of a source directory that are not excluded by their own path.

A file's machine has what its copy holds; `placed` says which file's copy lies at a place of the
backup. A second file that comes to the same place would get the same destination there, with
both contents in it, so what the machines say of the copies holds for sets whose destinations
are apart.
-/

namespace TokuBackup.HotCopy

open Kernel Copier

/-! ## State -/

inductive Pc where
  /-- The loop of `backup_session::do_copy`. -/
  | next
  /-- The loop of `copier::do_copy`. -/
  | loop
  /-- In `copy_using_source_info` for the file with these components. -/
  | copying (file : List Path)
  | returned (r : Int)
  /-- A pass has ended early: `poll` has aborted it, or copying is disabled. -/
  | stopped

structure State where
  files : List Path → Convergence.State
  /-- The directories that the copier has made, or has found made. -/
  made : List Path
  /-- The file that was copied to a place of the backup. -/
  placed : List Path → Option (List Path)
  /-- The directory of the set that is being copied. -/
  index : Nat
  todo : List Path
  pc : Pc
  /-- Ghost: the entries handed to `copy_stripped_file`, with the directory. -/
  handled : List (Nat × Path)

inductive Action where
  | next
  /-- Handle the first entry of the todo list; when it is a directory, `entries` is what
  `readdir` returns. -/
  | pop (entries : List Path)
  /-- The next step of the pass over a file; a read returns `n` bytes. -/
  | copier (n : Nat)
  | copierAbort (disabled : Bool)
  /-- A callback or a system call fails with an error that is returned. -/
  | fail (r : Int)
  /-- A step of a call on the file at an entry. -/
  | app (x : Item) (a : Convergence.Action)

/-! ## Steps -/

/-- The actions of a file's machine that are not the copier's. -/
def isApp : Convergence.Action → Bool
  | .copier _ => false
  | .copierAbort _ => false
  | _ => true

def isRegular : Option Node → Bool
  | some (.regular _) => true
  | _ => false

/-- Where the walk is after a step of the pass over `file`. -/
def afterPass (file : List Path) : Convergence.CopierPc → Pc
  | .over true => .loop
  | .over false => .stopped
  | _ => .copying file

def copyStep (s : State) (a : Convergence.Action) : Option State :=
  match s.pc with
  | .copying file =>
    (Convergence.step (s.files file) a).map fun f =>
      { s with files := Function.update s.files file f, pc := afterPass file f.copier.pc }
  | _ => none

variable (D : DirectorySet) (tree : Fs)

def copyFullPath (s : State) (source dest file : Path) (entries : List Path) : Option State :=
  if D.excludeCopy source then some { s with pc := .loop }
  else
    match tree.stat source with
    | .error e => some { s with pc := if e = .enoent then .loop else .returned e.errno }
    | .ok (.regular _) =>
      some { s with
        placed := Function.update s.placed (components dest) (some (components source))
        pc := .copying (components source) }
    | .ok .directory =>
      if IsListing tree (components source) entries then
        some { s with
          made := s.made ++ [dest], todo := s.todo ++ dirEntries file entries, pc := .loop }
      else none

def copyStrippedFile (s : State) (source dest file : Path) (entries : List Path) :
    Option State :=
  if file = ['.'] then copyFullPath D tree s source dest [] entries
  else copyFullPath D tree s (pathcat source file) (pathcat dest file) file entries

/-- A step of a call on the file at `x`. -/
def appStep (s : State) (x : Item) (a : Convergence.Action) : Option State :=
  match D.dirs[x.1]? with
  | some (source, _) =>
    let file := components source ++ x.2
    if isApp a && isRegular (tree.node file) && !D.excludeCopy (entryPath source x.2) then
      (Convergence.step (s.files file) a).map fun f =>
        { s with files := Function.update s.files file f }
    else none
  | none => none

def step (s : State) : Action → Option State
  | .next =>
    match s.pc with
    | .next =>
      if s.index < D.dirs.length then some { s with todo := s.todo ++ [['.']], pc := .loop }
      else some { s with pc := .returned 0 }
    | .loop =>
      match s.todo with
      | [] => some { s with index := s.index + 1, pc := .next }
      | _ :: _ => none
    | _ => none
  | .pop entries =>
    match s.pc, s.todo, D.dirs[s.index]? with
    | .loop, file :: todo, some (source, dest) =>
      copyStrippedFile D tree { s with todo := todo, handled := s.handled ++ [(s.index, file)] }
        source dest file entries
    | _, _, _ => none
  | .copier n => copyStep s (.copier n)
  | .copierAbort disabled => copyStep s (.copierAbort disabled)
  | .fail r =>
    match s.pc with
    | .returned _ => none
    | .stopped => none
    | _ => if r = 0 then none else some { s with pc := .returned r }
  | .app x a => appStep D tree s x a

/-! ## Runs -/

/-- No `ftruncate` to `LLONG_MAX` overlaps an `ftruncate` of the same file to another
length. -/
def NoTruncateRace (s : State) : Action → Prop
  | .app x a => ∀ d ∈ D.dirs[x.1]?, Convergence.NoTruncateRace (s.files (components d.1 ++ x.2)) a
  | _ => True

/-- The start of the copy: the files are as `Convergence.Initial` has them. -/
structure Initial (s : State) : Prop where
  files : ∀ file, isRegular (tree.node file) = true → Convergence.Initial (s.files file)
  made : s.made = []
  placed : ∀ place, s.placed place = none
  index : s.index = 0
  todo : s.todo = []
  pc : s.pc = .next
  handled : s.handled = []

/-- No directory of one kind lies in another one of that kind. -/
def DirsApart (dir : Path × Path → Path) : Prop :=
  ∀ (i j : Nat) (d d' : Path × Path), D.dirs[i]? = some d → D.dirs[j]? = some d' →
    components (dir d) <+: components (dir d') → i = j

/-- No source directory lies in another one. -/
def SourcesApart : Prop := DirsApart D Prod.fst

/-- No destination lies in another one. -/
def DestinationsApart : Prop := DirsApart D Prod.snd

/-- What the backup has at a place. -/
def State.backup (s : State) (place : List Path) : Option Content :=
  (s.placed place).map fun file => (s.files file).dst

end TokuBackup.HotCopy
