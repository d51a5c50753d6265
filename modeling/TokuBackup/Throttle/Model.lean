import TokuBackup.Progress.Main
import Mathlib.Algebra.Order.Floor.Ring
import Mathlib.Data.Rat.Floor
import Mathlib.Order.WithBot

/-!
# The copier against the clock

The machine of `Progress` with the clock, the throttle and the loop of
`possibly_sleep_or_abort`, which there is one place. The clock is `CLOCK_MONOTONIC`: it does not
go back. The throttle may be set by any thread at any time. What the C++ code computes in
`double` is exact here, and a division by a throttle of 0 gives infinity. As in `Progress`, the
source trees do not change, and `returned` is the return after all directories; `do_copy` may
also return with a file unfinished, when copying is disabled, the callback returns another value
than 0 or a call fails, and this is `failed`.

`usleep` may return early, so that a sleep is only a request; the loop looks at the clock again
after it. What is asked for goes by the time that was read before the callback, which may take
any time itself.
-/

namespace TokuBackup.Throttle

open Kernel Progress

/-! ## The budget -/

/-- `total_written_this_file / (double)throttle`, for a file of which something was written. -/
def budgetedTime (total_written_this_file throttle : Nat) : WithTop ℚ :=
  if throttle = 0 then ⊤ else ((total_written_this_file / throttle : ℚ) : WithTop ℚ)

/-- `budgeted_time - actual_time` -/
def sleepTime (budgeted_time : WithTop ℚ) (actual_time : ℚ) : WithTop ℚ :=
  WithTop.map (· - actual_time) budgeted_time

/-- What `usleep` is asked for. -/
def microseconds (sleep_time : WithTop ℚ) : Nat :=
  if 1 < sleep_time then 1000000 else ⌊sleep_time.untopD 0 * 1000000⌋.toNat

/-! ## State -/

/-- Where `possibly_sleep_or_abort` is. -/
inductive Wait where
  /-- At the head of the loop. -/
  | checking
  /-- The budget is not used up; the callback is next. -/
  | polling (actual_time : ℚ) (budgeted_time : WithTop ℚ)
  /-- The callback has returned 0; `usleep` is next. -/
  | sleeping (actual_time : ℚ) (budgeted_time : WithTop ℚ)

/-- What the waiting copier does. -/
inductive Event where
  | poll
  | sleep (actual_time : ℚ) (budgeted_time : WithTop ℚ) (microseconds : Nat)

structure State where
  copy : Progress.State
  clock : ℚ
  /-- `m_throttle` of the manager, in bytes per second. -/
  throttle : Nat
  starttime : ℚ
  totalWrittenThisFile : Nat
  wait : Wait
  /-- Ghost: what the copier has done while it waited. -/
  events : List Event

inductive Action where
  /-- Time goes by. -/
  | tick (seconds : ℚ)
  /-- `tokubackup_throttle_backup` -/
  | setThrottle (bytes_per_second : Nat)
  /-- A step outside `possibly_sleep_or_abort`, or the failure of a call anywhere. -/
  | copy (a : Progress.Action)
  /-- The head of the loop. -/
  | check
  /-- The callback of the loop returns `r`. -/
  | poll (r : Int)
  /-- `usleep` is called, and returns. -/
  | sleep

def start (uninitialized : Nat) (clock : ℚ) (throttle : Nat) : State :=
  ⟨Progress.start uninitialized, clock, throttle, clock, 0, .checking, []⟩

/-! ## Steps -/

/-- What `copy_file_data` does to its own variables. -/
def account (s : State) : Progress.Action → State
  | .pop _ => { s with starttime := s.clock, totalWrittenThisFile := 0 }
  | .write n =>
    { s with totalWrittenThisFile := s.totalWrittenThisFile + n, wait := .checking }
  | _ => s

def isFail : Progress.Action → Bool
  | .fail => true
  | _ => false

variable (D : DirectorySet) (tree : Path → SourceTree)

def stepCopy (s : State) (a : Progress.Action) : Option State :=
  let next := (Progress.step D tree s.copy a).map fun copy => { account s a with copy := copy }
  match s.copy.pc with
  | .throttle _ => if isFail a then next else none
  | _ => next

/-- The clock and the throttle are read; the loop ends or asks for a sleep. -/
def stepCheck (s : State) : Option State :=
  match s.copy.pc, s.wait with
  | .throttle _, .checking =>
    let actual_time := s.clock - s.starttime
    let budgeted_time := budgetedTime s.totalWrittenThisFile s.throttle
    if budgeted_time ≤ actual_time then
      (Progress.step D tree s.copy .next).map fun copy => { s with copy := copy }
    else some { s with wait := .polling actual_time budgeted_time }
  | _, _ => none

def stepPoll (s : State) (r : Int) : Option State :=
  match s.copy.pc, s.wait with
  | .throttle _, .polling actual_time budgeted_time =>
    (Progress.step D tree s.copy (.poll r)).map fun copy => { s with
      copy := copy
      wait := .sleeping actual_time budgeted_time
      events := s.events ++ [.poll] }
  | _, _ => none

def stepSleep (s : State) : Option State :=
  match s.copy.pc, s.wait with
  | .throttle _, .sleeping actual_time budgeted_time => some { s with
      wait := .checking
      events := s.events ++ [.sleep actual_time budgeted_time
        (microseconds (sleepTime budgeted_time actual_time))] }
  | _, _ => none

def step (s : State) : Action → Option State
  | .tick seconds => if 0 ≤ seconds then some { s with clock := s.clock + seconds } else none
  | .setThrottle bytes_per_second => some { s with throttle := bytes_per_second }
  | .copy a => stepCopy D tree s a
  | .check => stepCheck D tree s
  | .poll r => stepPoll D tree s r
  | .sleep => stepSleep s

/-- The throttle is never set above `rate`. -/
def AtMost (rate : Nat) (_ : State) : Action → Prop
  | .setThrottle bytes_per_second => bytes_per_second ≤ rate
  | _ => True

end TokuBackup.Throttle
