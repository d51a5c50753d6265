import TokuBackup.Progress.Tree
import TokuBackup.Lib.Machine
import Mathlib.Data.Rat.Defs

/-!
# What the poll callback is told

`backup_session::do_copy` and the copier with their two totals, on source trees that do not
change. `do_copy` sets `m_total_bytes_to_back_up` for its directory; `m_total_bytes_backed_up`
starts at 0 with the session and goes up with every `write`. The callback gets
`(m_total_bytes_backed_up + 1) / (m_total_bytes_to_back_up + 1)`.

The actions decide the order of a listing, how many bytes a `read` or a `write` transfers, how
often the throttle makes the copier wait, and when a call fails or copying is disabled. What the
calls do to the destinations is left out; no source file in the file table is unlinked, so that
every file that is found gets its copy. Both totals stay below `2 ^ 63`.
-/

namespace TokuBackup.Progress

open Kernel
open Copier (dirEntries)

/-! ## State -/

/-- The size of the file that is copied, and the offset of its descriptor. -/
structure Copying where
  size : Nat
  offset : Nat

inductive Pc where
  /-- The loop of `backup_session::do_copy`. -/
  | next
  /-- The head of the loop of `copier::do_copy`. -/
  | loop
  /-- The callback of the loop has returned 0; `pop_front` is next. -/
  | pop
  /-- The loop of `copy_file_data`. -/
  | reading (c : Copying)
  /-- The head of the loop of `copy_file_range`: the callback is next. -/
  | range (c : Copying) (n_read n_wrote_this_buf : Nat)
  /-- `write` is next. -/
  | write (c : Copying) (n_read n_wrote_this_buf : Nat)
  /-- The loop of `possibly_sleep_or_abort`. -/
  | throttle (c : Copying)
  | returned
  /-- A call has failed or copying is disabled: there are no more polls. -/
  | failed

structure State where
  /-- The directory of the set that is being copied. -/
  index : Nat
  todo : List Path
  pc : Pc
  totalBytesBackedUp : Nat
  totalBytesToBackUp : Nat
  /-- Ghost: the two totals at each poll. -/
  polls : List (Nat × Nat)

/-- The constructor does not set `m_total_bytes_to_back_up`. -/
def start (uninitialized : Nat) : State := ⟨0, [], .next, 0, uninitialized, []⟩

/-- The number that the callback gets. -/
def fraction (poll : Nat × Nat) : ℚ := (poll.1 + 1) / (poll.2 + 1)

inductive Action where
  | next
  /-- The callback returns `r`. -/
  | poll (r : Int)
  /-- Handle the first entry of the todo list; when it is a directory, `entries` is what
  `readdir` returns. -/
  | pop (entries : List Path)
  | read (n : Nat)
  | write (n : Nat)
  /-- A call fails, or an error disables copying. -/
  | fail

/-! ## Steps -/

def State.poll (s : State) : State :=
  { s with polls := s.polls ++ [(s.totalBytesBackedUp, s.totalBytesToBackUp)] }

/-- The calls of the callback: for an entry of the todo list, before a `write`, and while the
throttle makes the copier wait. -/
def stepPoll (s : State) (r : Int) : Option State :=
  match s.pc with
  | .loop =>
    match s.todo with
    | [] => none
    | _ :: _ => some { s.poll with pc := if r = 0 then .pop else .failed }
  | .range c n_read n_wrote_this_buf =>
    some { s.poll with pc := if r = 0 then .write c n_read n_wrote_this_buf else .failed }
  | .throttle c => some { s.poll with pc := if r = 0 then .throttle c else .failed }
  | _ => none

variable (D : DirectorySet) (tree : Path → SourceTree)

/-- `do_copy` starts, the directory is done, or the throttle lets the copier go on. -/
def stepNext (s : State) : Option State :=
  match s.pc with
  | .next =>
    match D.dirs[s.index]? with
    | some (source, _) => some { s with
        todo := s.todo ++ [['.']], totalBytesToBackUp := dirsum (tree source).entries, pc := .loop }
    | none => some { s with pc := .returned }
  | .loop =>
    match s.todo with
    | [] => some { s with index := s.index + 1, pc := .next }
    | _ :: _ => none
  | .throttle c => some { s with pc := .reading c }
  | _ => none

/-- `copy_full_path`. `file` is what the path has after the source directory. -/
def copyFullPath (s : State) (T : Tree) (source file : Path) (entries : List Path) :
    Option State :=
  if D.excludeCopy source then some { s with pc := .loop }
  else
    match T.find (components file) with
    | none => some { s with pc := .loop }
    | some (.regular size) => some { s with pc := .reading ⟨size, 0⟩ }
    | some .other => some { s with pc := .loop }
    | some (.directory listed) =>
      if (entries.filter fun name => !DoBackup.isDot name).Perm (listed.map Prod.fst) then
        some { s with todo := s.todo ++ dirEntries file entries, pc := .loop }
      else none

def copyStrippedFile (s : State) (T : Tree) (source file : Path) (entries : List Path) :
    Option State :=
  if file = ['.'] then copyFullPath D s T source [] entries
  else copyFullPath D s T (pathcat source file) file entries

def stepPop (s : State) (entries : List Path) : Option State :=
  match s.pc, s.todo, D.dirs[s.index]? with
  | .pop, file :: todo, some (source, _) =>
    copyStrippedFile D { s with todo := todo } (tree source).root source file entries
  | _, _, _ => none

/-- `read` of a chunk. At the end of the file the copy is over. -/
def stepRead (s : State) (n : Nat) : Option State :=
  match s.pc with
  | .reading c =>
    if n ≤ Convergence.bufSize ∧ c.offset + n ≤ c.size ∧ (n = 0 → c.offset = c.size) then
      if n = 0 then some { s with pc := .loop }
      else some { s with pc := .range { c with offset := c.offset + n } n 0 }
    else none
  | _ => none

/-- `write` of what is left of the chunk. -/
def stepWrite (s : State) (n : Nat) : Option State :=
  match s.pc with
  | .write c n_read n_wrote_this_buf =>
    if n_wrote_this_buf + n ≤ n_read then
      some { s with
        totalBytesBackedUp := s.totalBytesBackedUp + n
        pc := if n_wrote_this_buf + n < n_read then .range c n_read (n_wrote_this_buf + n)
          else .throttle c }
    else none
  | _ => none

def step (s : State) : Action → Option State
  | .next => stepNext D tree s
  | .poll r => stepPoll s r
  | .pop entries => stepPop D tree s entries
  | .read n => stepRead s n
  | .write n => stepWrite s n
  | .fail =>
    match s.pc with
    | .returned => none
    | .failed => none
    | _ => some { s with pc := .failed }

/-! ## What a directory comes to -/

/-- `dirsum` of directory `i`. -/
def totalOf (i : Nat) : Nat := (D.dirs[i]?).elim 0 fun d => dirsum (tree d.1).entries

/-- The bytes to copy at an entry of directory `i`: those of the files in it that are not
excluded, nor in a directory that is. -/
def bytesAt (i : Nat) (rel : List Path) : Nat :=
  (D.dirs[i]?).elim 0 fun d =>
    (tree d.1).root.sumAt (fun rel => D.excludeCopy (Copier.entryPath d.1 rel)) id 0 rel

/-- The bytes to copy in directory `i`. -/
def bytesOf (i : Nat) : Nat := bytesAt D tree i []

/-- The bytes to copy in the directories before `i`. -/
def bytesBefore (i : Nat) : Nat := ((List.range i).map (bytesOf D tree)).sum

end TokuBackup.Progress
