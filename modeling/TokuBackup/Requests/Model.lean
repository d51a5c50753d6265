import TokuBackup.DirectorySet
import TokuBackup.Lib.Machine

/-!
# Requests for a backup

Any number of threads call `do_backup`; the one that gets `m_mutex` does the backup, the
others are rejected. The applications' threads make calls that a session captures, and may
report errors. Every access to what the threads share is a step of its own; the session's end
and its start are under the session lock, and `backup_error` of an application's thread and
of the thread that does the backup are one step each. `m_backup_is_running` is left out,
since nothing reads it.
-/

namespace TokuBackup.Requests

open Kernel

/-! ## State -/

/-- What a request must not disturb: the flags of `manager_state`, the recorded error, and the
session. -/
structure Shared where
  captureEnabled : Bool
  copyEnabled : Bool
  anErrorHappened : Bool
  errnum : Int
  errstring : Option String
  session : Option DirectorySet

/-- A call of the application. -/
inductive Operation where
  /-- Captured in every session: `open`, `write`, `pwrite`, `ftruncate`, `rename`, `mkdir`. -/
  | inSession (path : Path)
  /-- `unlink` and `truncate`, which check `capture_is_enabled`. -/
  | whenEnabled (path : Path)
  deriving DecidableEq

structure Manager where
  shared : Shared
  isDead : Bool
  /-- The caller that holds `m_mutex`. -/
  mutex : Option Nat
  todo : List Path
  /-- The ranges of files that the copier has copied. -/
  copied : List (Path × Nat)
  captured : List Operation

/-- Where a call of `do_backup` is. -/
inductive Pc where
  | idle
  /-- `is_dead` is next. -/
  | entered
  /-- `m_an_error_happened = false` is next. -/
  | alive
  | started
  | polled
  /-- In `backup_error` without the lock: `disable_capture` is next. -/
  | failing (r : Int) (text : String)
  /-- `disable_copy` and the callback are next. -/
  | disabling (r : Int) (text : String)
  | validating
  | validated
  /-- The session has begun. -/
  | preparing
  /-- `backup_session::do_copy` has come to the directory `index`. -/
  | directory (index : Nat)
  | copying (index : Nat)
  /-- `n` ranges of the file are copied. -/
  | file (index : Nat) (path : Path) (n : Nat)
  | stopping (r : Int)
  | unlocking (r : Int)
  | unlocked (r : Int)
  | returned (r : Int)
  deriving DecidableEq

structure Caller where
  pc : Pc
  /-- The calls of its error callback. -/
  reports : List (Int × String)

structure State where
  manager : Manager
  callers : Nat → Caller

def Shared.disable (h : Shared) : Shared := { h with captureEnabled := false, copyEnabled := false }

/-- `set_error_internal`: the first error is kept. -/
def Shared.setError (h : Shared) (errnum : Int) (text : String) : Shared :=
  if h.anErrorHappened then h
  else { h with anErrorHappened := true, errnum, errstring := some text }

/-- Whether the session captures the operation. -/
def Shared.captures (h : Shared) : Operation → Bool
  | .inSession _ => h.session.isSome
  | .whenEnabled _ => h.session.isSome && h.captureEnabled

def Caller.goto (c : Caller) (pc : Pc) : Caller := { c with pc }

/-- The error callback. -/
def Caller.report (c : Caller) (errnum : Int) (text : String) : Caller :=
  { c with reports := c.reports ++ [(errnum, text)] }

/-- `backup_error` disables capture and copy. -/
def Manager.disable (m : Manager) : Manager := { m with shared := m.shared.disable }

/-! ## Steps -/

/-- A step of a call of `do_backup`, with the answers of what it calls. -/
inductive Step where
  | enter
  | checkDead
  | clearError
  | poll (r : Int)
  | trylock
  | disableCapture
  | disableCopy
  | validate (r : Int)
  /-- `backup_error` by the thread that does the backup. -/
  | holderError (errnum : Int) (text : String)
  | startSession (D : DirectorySet)
  | prepare (r : Int)
  | nextDirectory
  /-- A round of `copier::do_copy`, with the result of the poll callback. -/
  | copyNext (poll : Int)
  /-- The copier turns to the next range of its file; there may be none. -/
  | copyRange (more : Bool)
  /-- The file is a directory with these entries. -/
  | list (entries : List Path)
  | copyError (r : Int)
  | endSession
  | unlock
  | leave

/-- The steps of `do_backup` up to `m_mutex`, on the thread of the caller `i`. -/
def stepRequest (m : Manager) (i : Nat) (c : Caller) : Step → Option (Manager × Caller)
  | .enter =>
    match c.pc with
    | .idle => some (m, c.goto .entered)
    | .returned _ => some (m, c.goto .entered)
    | _ => none
  | .checkDead =>
    match c.pc with
    | .entered =>
      if m.isDead then some (m, c.goto (.failing 22 "Backup system is dead"))
      else some (m, c.goto .alive)
    | _ => none
  | .clearError =>
    match c.pc with
    | .alive =>
      some ({ m with shared := { m.shared with anErrorHappened := false } }, c.goto .started)
    | _ => none
  | .poll r =>
    match c.pc with
    | .started =>
      if r ≠ 0 then some (m, c.goto (.failing r "User aborted backup"))
        else some (m, c.goto .polled)
    | _ => none
  | .trylock =>
    match c.pc with
    | .polled =>
      if m.mutex = none then some ({ m with mutex := some i }, c.goto .validating)
      else some (m, c.goto (.failing 16 "Another backup is in progress."))
    | _ => none
  | .disableCapture =>
    match c.pc with
    | .failing r text =>
      some ({ m with shared := { m.shared with captureEnabled := false } },
        c.goto (.disabling r text))
    | _ => none
  | .disableCopy =>
    match c.pc with
    | .disabling r text =>
      some ({ m with shared := { m.shared with copyEnabled := false } },
        (c.report r text).goto (.returned r))
    | _ => none
  | _ => none

/-- The steps of the copier. -/
def stepCopier (m : Manager) (c : Caller) : Step → Option (Manager × Caller)
  | .nextDirectory =>
    match c.pc, m.shared.session with
    | .directory index, some D =>
      if index < D.dirs.length then
        some ({ m with todo := m.todo ++ [['.']] }, c.goto (.copying index))
      else some (m, c.goto (.stopping 0))
    | _, _ => none
  | .copyNext poll =>
    match c.pc with
    | .copying index =>
      match m.todo with
      | [] => some (m, c.goto (.directory (index + 1)))
      | path :: rest =>
        -- the copier leaves this directory without an error
        if m.shared.copyEnabled = false then
          some ({ m with todo := [] }, c.goto (.directory (index + 1)))
        else if poll ≠ 0 then
          some (m.disable, (c.report poll "COPY phase returned an error: %d").goto (.stopping poll))
        else some ({ m with todo := rest }, c.goto (.file index path 0))
    | _ => none
  | .copyRange more =>
    match c.pc with
    | .file index path n =>
      if m.shared.copyEnabled = false then some (m, c.goto (.copying index))
      else if more then
        some ({ m with copied := m.copied ++ [(path, n)] }, c.goto (.file index path (n + 1)))
      else some (m, c.goto (.copying index))
    | _ => none
  | .list entries =>
    match c.pc with
    | .file index _ 0 => some ({ m with todo := m.todo ++ entries }, c.goto (.copying index))
    | _ => none
  | .copyError r =>
    match c.pc with
    | .file _ _ _ =>
      if r ≠ 0 then
        some (m.disable, (c.report r "COPY phase returned an error: %d").goto (.stopping r))
      else none
    | _ => none
  | _ => none

/-- The steps of `do_backup` with `m_mutex`. -/
def stepHolder (m : Manager) (c : Caller) : Step → Option (Manager × Caller)
  | .validate r =>
    match c.pc with
    | .validating => some (m, c.goto (if r ≠ 0 then .unlocking r else .validated))
    | _ => none
  | .holderError errnum text =>
    match c.pc with
    | .validating => some (m.disable, c.report errnum text)
    | .preparing => some (m.disable, c.report errnum text)
    | .file _ _ _ => some (m.disable, c.report errnum text)
    | .stopping _ => some (m.disable, c.report errnum text)
    | _ => none
  | .startSession D =>
    match c.pc with
    | .validated =>
      some ({ m with shared := { m.shared with session := some D }, todo := [] }, c.goto .preparing)
    | _ => none
  | .prepare r =>
    match c.pc with
    | .preparing =>
      if r ≠ 0 then some (m, c.goto (.stopping r))
      else
        some ({ m with shared := { m.shared with captureEnabled := true, copyEnabled := true } },
          c.goto (.directory 0))
    | _ => none
  | .endSession =>
    match c.pc with
    | .stopping r =>
      some ({ m with
          shared := { m.shared with captureEnabled := false, session := none }
          todo := [] },
        c.goto (.unlocking r))
    | _ => none
  | .unlock =>
    match c.pc with
    | .unlocking r => some ({ m with mutex := none }, c.goto (.unlocked r))
    | _ => none
  | .leave =>
    match c.pc with
    | .unlocked r =>
      if m.shared.anErrorHappened then
        some (m, (c.report m.shared.errnum (m.shared.errstring.getD "")).goto
          (.returned (if r = 0 then m.shared.errnum else r)))
      else some (m, c.goto (.returned r))
    | _ => none
  | a => stepCopier m c a

/-- A step of the caller `i`, whose thread sees the manager and its own state. -/
def stepCaller (m : Manager) (i : Nat) (c : Caller) (a : Step) : Option (Manager × Caller) :=
  (stepRequest m i c a).or (stepHolder m c a)

inductive Action where
  /-- The caller `i` takes a step. -/
  | call (i : Nat) (a : Step)
  /-- The application makes a call. -/
  | operate (op : Operation)
  /-- `backup_error` on a thread of the application. -/
  | applicationError (errnum : Int) (text : String)

def step (s : State) : Action → Option State
  | .call i a =>
    (stepCaller s.manager i (s.callers i) a).map fun (m, c) => ⟨m, Function.update s.callers i c⟩
  | .operate op =>
    let m := s.manager
    some ⟨if m.shared.captures op then { m with captured := m.captured ++ [op] } else m, s.callers⟩
  | .applicationError errnum text =>
    let m := s.manager
    some ⟨{ m with shared := m.shared.disable.setError errnum text }, s.callers⟩

/-- No backup has been asked for. -/
structure Initial (s : State) : Prop where
  idle : ∀ i, (s.callers i).pc = .idle
  mutex : s.manager.mutex = none
  session : s.manager.shared.session = none

end TokuBackup.Requests
