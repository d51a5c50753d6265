import TokuBackup.DoBackup.Calls

/-!
# The directories of a path in the backup

`open_path` and `create_subdirectories`, for the callers that make directories in the backup:
the captured calls and the preparation of the open files. The two callers differ in how a
system call is made and in what it answers, which are parameters here.
-/

namespace TokuBackup.OpenPath

open Kernel
open DoBackup (Errno)

def errnoOf {α : Type} : Except Errno α → Option Errno
  | .error e => some e
  | .ok _ => none

/-- The proper prefixes of a path that end before a `/`. -/
def subdirectories (path : Path) : List Path :=
  ((List.range path.length).filter fun i => 0 < i ∧ path[i]? = some '/').map fun i => path.take i

section

variable {m : Type → Type} [Monad m] {Answer Found : Type} (mkdir : Path → m Answer)
  (errno : Answer → Option Errno) (stat : Path → m (Except Errno Found))

/-- `create_subdirectories`, for the prefixes that are left. -/
def createSubdirectories : List Path → m Int
  | [] => return 0
  | directory :: rest => do
    let answer ← mkdir directory
    match errno answer with
    | some e => if e = .eexist then createSubdirectories rest else return e.code
    | none => createSubdirectories rest

/-- `open_path`, with `does_file_exist`. -/
def openPath (file_path : Path) : m Int := do
  match ← stat file_path with
  | .ok _ => return 0
  | .error e =>
    if e = .enoent then createSubdirectories mkdir errno (subdirectories file_path) else return -1

end

end TokuBackup.OpenPath
