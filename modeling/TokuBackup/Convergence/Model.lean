import TokuBackup.Convergence.Mirror
import TokuBackup.Lib.Machine

/-!
# One file under capture and copy

The machine of one source file during an active session: application threads that call
`write`, `pwrite` and `ftruncate` on fds of the file, fds that are opened and closed, and
one copier pass over the file (`copy_using_source_info`, `copy_regular_file`,
`create_destination_and_copy`, `copy_file_data`). Each lock-protected section and each
system call is one step, and any party may take the next one.

The file lies in a source directory and is not excluded, and the session is active
throughout, so `try_to_enter_session_and_lock` always enters. Data calls succeed in full:
a data call whose end lies past the largest offset, which the kernel refuses, is no step.
The copier's reads may be short. `poll` may abort the pass and an error elsewhere may
disable copying; the pass is then over without having reached the end of the source. The
throttle never delays: after a write `possibly_sleep_or_abort` returns without a sleep, so that
it is no step here.
-/

namespace TokuBackup.Convergence

open Kernel

/-! ## Calls -/

/-- The data calls of the application. -/
inductive Call where
  | write (fd : Nat) (buf : List UInt8)
  | pwrite (fd : Nat) (buf : List UInt8) (offset : Nat)
  | ftruncate (fd : Nat) (length : Nat)

def Call.fd : Call → Nat
  | .write fd _ => fd
  | .pwrite fd _ _ => fd
  | .ftruncate fd _ => fd

/-! ## State -/

/-- A `destination_file`: its identity and the file offset of its descriptor. -/
structure DestinationFile where
  id : Nat
  offset : Nat
  deriving DecidableEq

/-- Where an fd stands between the real `open` and the real `close`. -/
inductive FdStage where
  /-- The real `open` has returned. -/
  | opened
  /-- `get_or_create_locked` has returned the source file. -/
  | attached
  /-- `m_map.put` has run. -/
  | published
  /-- The interposed `open` has returned. -/
  | usable
  /-- The interposed `close` has fetched the description. -/
  | closing
  /-- The section of `close` that tries to remove the destination has run. -/
  | unhooked
  /-- `m_map.erase` has run. -/
  | erased
  /-- `try_to_remove_locked` has run; the real `close` is left. -/
  | released
  deriving DecidableEq

/-- The fd is counted in the reference count of the source file. -/
def FdStage.holds : FdStage → Bool
  | .opened => false
  | .released => false
  | _ => true

/-- An fd of the file: its stage, and the description's offset and mutex. -/
structure Fd where
  stage : FdStage
  offset : Nat
  lock : Option Nat

/-- Where an application thread stands in a data call. -/
inductive Thread where
  | idle
  /-- The call has fetched the description. -/
  | called (c : Call)
  /-- `write` holds the description's mutex and has read the offset. -/
  | descLocked (fd : Nat) (buf : List UInt8) (lock_start : Nat)
  /-- The range is locked. -/
  | ranged (c : Call) (e : Effect)
  /-- The real `write` has returned, the description is still locked. -/
  | wrote (fd : Nat) (buf : List UInt8) (e : Effect)
  /-- The real call has returned and only the range lock is held. -/
  | done (c : Call) (e : Effect)
  /-- `get_destination` has returned, inside the session. -/
  | fetched (c : Call) (e : Effect) (dest : Option Nat)
  /-- The capture is over, the range is still locked. -/
  | applied (c : Call) (e : Effect)

/-- `buf_size` of `copy_file_data`. -/
def bufSize : Nat := 1024 * 1024

/-- Where the copier stands in its pass over the file. -/
inductive CopierPc where
  /-- Before `get_or_create_locked`. -/
  | start
  | attached
  /-- The source is open for reading, at offset `0`. -/
  | opened
  /-- The locked section with `lstat` and `try_to_create_destination_file` has run. -/
  | created
  /-- At the top of the loop of `copy_file_data`. -/
  | loop
  /-- The chunk's range is locked. -/
  | locked
  /-- The chunk is in the buffer, `poll` is next. -/
  | writing (chunk : List UInt8)
  /-- `copy_file_range` has returned with this `m_n_wrote_now`; the range is locked. -/
  | wrote (n_wrote_now : Nat)
  /-- `poll` has aborted the pass; the range is locked. -/
  | aborted
  /-- `copy_file_data` has returned `0`, having seen the end of the source or not. -/
  | copied (eof : Bool)
  /-- `create_destination_and_copy` has returned. -/
  | returned (eof : Bool)
  | closed (eof : Bool)
  /-- `try_to_remove_locked` has run: the pass is over. -/
  | over (eof : Bool)

/-- The copier: the offset of its source fd, `m_total_written_this_file`, `lock_start`,
and the destination that `copy_file_range` fetched. -/
structure Copier where
  pc : CopierPc
  sourceOffset : Nat
  totalWrittenThisFile : Nat
  lockStart : Nat
  dest : Option Nat

/-- The range that the copier locks around a chunk. -/
def Copier.range (c : Copier) : Range := ⟨c.lockStart, c.lockStart + bufSize⟩

structure State where
  /-- The source file. -/
  src : Content
  /-- The file at the translated path; empty when it does not exist yet. -/
  dst : Content
  referenceCount : Nat
  destination : Option DestinationFile
  /-- The next destination's identity. -/
  fresh : Nat
  lockedRanges : List Range
  fds : Nat → Option Fd
  threads : List Thread
  copier : Copier
  /-- A destination was used after it was closed, or a range was unlocked that was not
  locked. -/
  fault : Bool

/-! ## Sections on the source file -/

/-- `source_file::try_to_remove_destination`. -/
def tryToRemoveDestination (s : State) : State :=
  if s.destination = none then s
  else if s.referenceCount > 1 then s
  else { s with destination := none }

/-- `source_file::try_to_create_destination_file`: `O_RDWR | O_CREAT`, so an existing
file keeps its content. -/
def tryToCreateDestinationFile (s : State) : State :=
  if s.destination = none then
    { s with destination := some ⟨s.fresh, 0⟩, fresh := s.fresh + 1 }
  else s

/-- `file_hash_table::get_or_create_locked`. -/
def getOrCreateLocked (s : State) : State :=
  { s with referenceCount := s.referenceCount + 1 }

/-- `file_hash_table::try_to_remove_locked`: the last reference deletes the source file,
and its locked ranges with it. -/
def tryToRemoveLocked (s : State) : State :=
  let s := { s with referenceCount := s.referenceCount - 1 }
  if s.referenceCount = 0 then { tryToRemoveDestination s with lockedRanges := [] } else s

/-- `source_file::unlock_range`. -/
def unlock (s : State) (r : Range) : State :=
  match unlockRange s.lockedRanges r with
  | some l => { s with lockedRanges := l }
  | none => { s with fault := true }

/-- A data call on a destination that was fetched before. -/
def useDestination (s : State) (id : Nat) (f : Content → Content) : State :=
  if s.destination.map DestinationFile.id = some id then { s with dst := f s.dst }
  else { s with fault := true }

/-! ## Steps -/

inductive Action where
  | openReal (fd : Nat)
  | openAttach (fd : Nat)
  | openPublish (fd : Nat)
  | openCapture (fd : Nat)
  /-- The application closes an fd only when no call on it is in flight. -/
  | closeBegin (fd : Nat)
  | closeUnhook (fd : Nat)
  | closeErase (fd : Nat)
  | closeRelease (fd : Nat)
  | closeReal (fd : Nat)
  /-- Thread `t` makes a call. -/
  | call (t : Nat) (c : Call)
  /-- Thread `t` takes its next step. -/
  | thread (t : Nat)
  /-- The copier takes its next step; a read returns `n` bytes. -/
  | copier (n : Nat)
  /-- The copier's next `poll` returns nonzero, or it finds that copying was disabled. -/
  | copierAbort (disabled : Bool)

/-- Move fd `fd` from stage `a` to stage `b`. -/
def moveFd (s : State) (fd : Nat) (a b : FdStage) : Option State :=
  match s.fds fd with
  | some d =>
    if d.stage = a then
      some { s with fds := Function.update s.fds fd (some { d with stage := b }) }
    else none
  | none => none

/-- The call thread `th` is in, if any. -/
def Thread.call? : Thread → Option Call
  | .idle => none
  | .called c => some c
  | .descLocked fd buf _ => some (.write fd buf)
  | .ranged c _ => some c
  | .wrote fd buf _ => some (.write fd buf)
  | .done c _ => some c
  | .fetched c _ _ => some c
  | .applied c _ => some c

/-- Some call on `fd` is in flight. -/
def inUse (s : State) (fd : Nat) : Bool :=
  s.threads.any fun th => th.call?.any fun c => c.fd = fd

/-- `manager::write`, `manager::pwrite` and `manager::ftruncate`, one step at a time. -/
def stepThread (s : State) (t : Nat) : Option State :=
  let goto (s : State) (th : Thread) : State := { s with threads := s.threads.set t th }
  match s.threads[t]? with
  | some (.called (.write fd buf)) =>
    match s.fds fd with
    | some d =>
      if d.lock = none then
        some (goto { s with fds := Function.update s.fds fd (some { d with lock := some t }) }
          (.descLocked fd buf d.offset))
      else none
    | none => none
  | some (.called (.pwrite fd buf offset)) =>
    (lockRange s.lockedRanges ⟨offset, offset + buf.length⟩).map fun l =>
      goto { s with lockedRanges := l } (.ranged (.pwrite fd buf offset) (.write offset buf))
  | some (.called (.ftruncate fd length)) =>
    (lockRange s.lockedRanges ⟨length, llongMax⟩).map fun l =>
      goto { s with lockedRanges := l } (.ranged (.ftruncate fd length) (.truncate length))
  | some (.descLocked fd buf lock_start) =>
    (lockRange s.lockedRanges ⟨lock_start, lock_start + buf.length⟩).map fun l =>
      goto { s with lockedRanges := l } (.ranged (.write fd buf) (.write lock_start buf))
  | some (.ranged (.write fd buf) e) =>
    match s.fds fd with
    | some d =>
      -- the kernel writes at its own offset of the fd, which the description tracks
      if (Effect.write d.offset buf).fits then
        some (goto
          { s with
            src := (Effect.write d.offset buf).apply s.src
            fds := Function.update s.fds fd (some { d with offset := d.offset + buf.length }) }
          (.wrote fd buf e))
      else none
    | none => none
  | some (.ranged (.pwrite fd buf offset) e) =>
    if e.fits then
      -- nothing is captured unless something was written
      some (goto { s with src := e.apply s.src }
        (if buf = [] then .applied (.pwrite fd buf offset) e
          else .done (.pwrite fd buf offset) e))
    else none
  | some (.ranged (.ftruncate fd length) e) =>
    if e.fits then
      some (goto { s with src := e.apply s.src } (.done (.ftruncate fd length) e))
    else none
  | some (.wrote fd buf e) =>
    match s.fds fd with
    | some d =>
      some (goto { s with fds := Function.update s.fds fd (some { d with lock := none }) }
        (.done (.write fd buf) e))
    | none => none
  | some (.done c e) =>
    some (goto s (.fetched c e (s.destination.map DestinationFile.id)))
  | some (.fetched c e none) => some (goto s (.applied c e))
  | some (.fetched c e (some id)) => some (goto (useDestination s id e.apply) (.applied c e))
  | some (.applied _ e) => some (goto (unlock s e.range) .idle)
  | some .idle => none
  | none => none

/-- One step of the copier's pass. -/
def stepCopier (s : State) (n : Nat) : Option State :=
  let goto (s : State) (pc : CopierPc) : State := { s with copier := { s.copier with pc } }
  let c := s.copier
  match c.pc with
  | .start => some (goto (getOrCreateLocked s) .attached)
  | .attached => some { s with copier := { c with pc := .opened, sourceOffset := 0 } }
  | .opened => some (goto (tryToCreateDestinationFile s) .created)
  | .created => some { s with copier := { c with pc := .loop, totalWrittenThisFile := 0 } }
  | .loop =>
    let c := { c with pc := .locked, lockStart := c.totalWrittenThisFile }
    (lockRange s.lockedRanges c.range).map fun l => { s with lockedRanges := l, copier := c }
  | .locked =>
    -- `copy_file_range` fetches the destination and reads
    let c := { c with dest := s.destination.map DestinationFile.id }
    if s.src.len ≤ c.sourceOffset then
      if n = 0 then some { s with copier := { c with pc := .wrote 0 } } else none
    else if 0 < n ∧ n ≤ bufSize ∧ c.sourceOffset + n ≤ s.src.len then
      some { s with copier := { c with pc := .writing (s.src.read c.sourceOffset n),
                                       sourceOffset := c.sourceOffset + n } }
    else none
  | .writing chunk =>
    -- `write` on the destination's descriptor moves its offset
    match s.destination, c.dest with
    | some d, some id =>
      if d.id = id then
        some { s with
          dst := s.dst.write d.offset chunk
          destination := some { d with offset := d.offset + chunk.length }
          copier := { c with pc := .wrote chunk.length,
                             totalWrittenThisFile := c.totalWrittenThisFile + chunk.length } }
      else some { s with fault := true }
    | _, _ => some { s with fault := true }
  | .wrote n_wrote_now =>
    some (goto (unlock s c.range) (if n_wrote_now = 0 then .copied true else .loop))
  | .aborted => some (goto (unlock s c.range) (.returned false))
  | .copied eof => some (goto (tryToRemoveDestination s) (.returned eof))
  | .returned eof => some (goto s (.closed eof))
  | .closed eof => some (goto (tryToRemoveLocked s) (.over eof))
  | .over _ => none

/-- The pass ends early: `poll` returns nonzero before a write or while throttled, or
copying is disabled, which `copy_file_data` does not report as an error. -/
def abortCopier (s : State) (disabled : Bool) : Option State :=
  let goto (pc : CopierPc) : State := { s with copier := { s.copier with pc } }
  match s.copier.pc, disabled with
  | .writing _, false => some (goto .aborted)
  | .loop, false => some (goto (.returned false))
  | .loop, true => some (goto (.copied false))
  | _, _ => none

def step (s : State) : Action → Option State
  | .openReal fd =>
    if (s.fds fd).isNone then
      some { s with fds := Function.update s.fds fd (some ⟨.opened, 0, none⟩) }
    else none
  | .openAttach fd => moveFd (getOrCreateLocked s) fd .opened .attached
  | .openPublish fd => moveFd s fd .attached .published
  | .openCapture fd => moveFd (tryToCreateDestinationFile s) fd .published .usable
  | .closeBegin fd => if inUse s fd then none else moveFd s fd .usable .closing
  | .closeUnhook fd => moveFd (tryToRemoveDestination s) fd .closing .unhooked
  | .closeErase fd => moveFd s fd .unhooked .erased
  | .closeRelease fd => moveFd (tryToRemoveLocked s) fd .erased .released
  | .closeReal fd =>
    match s.fds fd with
    | some d =>
      if d.stage = .released then some { s with fds := Function.update s.fds fd none } else none
    | none => none
  | .call t c =>
    match s.threads[t]?, s.fds c.fd with
    | some .idle, some d =>
      if d.stage = .usable then some { s with threads := s.threads.set t (.called c) } else none
    | _, _ => none
  | .thread t => stepThread s t
  | .copier n => stepCopier s n
  | .copierAbort disabled => abortCopier s disabled

/-! ## Runs -/

/-- A state in which an active session tracks the file: any source content, any number of
tracked fds at any offsets, no call in flight, the copier not yet at the file. The backup
file is new in this session, so it is empty; its destination may have been created, when
the session was prepared, or not. -/
structure Initial (s : State) : Prop where
  src : s.src.len ≤ llongMax
  dst : s.dst = Content.empty
  destination : ∀ d, s.destination = some d → d.offset = 0 ∧ d.id < s.fresh
  counted : Lib.Counted (fun fd => (s.fds fd).isSome) s.referenceCount
  fds : ∀ fd d, s.fds fd = some d → d.stage = .usable ∧ d.lock = none
  lockedRanges : s.lockedRanges = []
  threads : ∀ th ∈ s.threads, th = .idle
  copier : s.copier = ⟨.start, 0, 0, 0, none⟩
  fault : s.fault = false

/-- The copier's pass is over and reached the end of the source. -/
def PassOver (s : State) : Prop := s.copier.pc = .over true

/-- No operation is in flight. -/
def Quiet (s : State) : Prop :=
  (∀ th ∈ s.threads, th = .idle) ∧ ∀ fd d, s.fds fd = some d → d.stage = .usable

end TokuBackup.Convergence
