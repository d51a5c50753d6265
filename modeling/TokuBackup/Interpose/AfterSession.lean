import Mathlib.Data.Finset.Basic
import TokuBackup.Interpose.Inner
import TokuBackup.Lib.Machine

/-!
# Nothing reaches the backup after the session

Any number of application threads run interposed calls, one operation at a time, and
`do_backup` opens and closes sessions under the session lock. All answers other than the
session pointer are arbitrary, so that nothing depends on the table, the fd map or the
outcome of system calls; the other locks only restrict the interleavings and are left out.

Each interposed call decides about capture after it has taken the session lock, and holds it
over everything that it does to the backup. The monitor `sessionMonitor` checks this for one
call; the invariant `Inv` lifts it to all threads.
-/

namespace TokuBackup.Interpose

open Kernel Table Lib Prog
open DoBackup (Errno)

/-! ## What a call does under the session lock -/

/-- Where a thread stands with the session lock. -/
inductive Mode where
  | outside
  /-- The lock is held, and nothing is known about the session. -/
  | locked
  /-- The lock is held, and there is a session. -/
  | inside
  deriving DecidableEq

/-- The lock is not taken twice and not given back without holding it, and what changes the
backup comes after a look at the session. -/
def sessionMonitor : Monitor Op.Answer Mode where
  permits
    | .rdlock, m => m = .outside
    | .rdunlock, m => m ≠ .outside
    | .backup c, m => c.Changes = true → m = .inside
    | _, _ => True
  next
    | .rdlock, _, _ => .locked
    | .rdunlock, _, _ => .outside
    | .session, m, (r : Option DirectorySet) =>
      if m = .outside then .outside else if r.isSome then .inside else .locked
    | _, m, _ => m

/-- An operation that a thread may perform in the mode, which it keeps. -/
def Op.plainIn (m : Mode) : Op → Bool
  | .rdlock => false
  | .rdunlock => false
  | .session => false
  | .backup c => !c.Changes || m == .inside
  | _ => true

/-- The program stays in the mode. -/
def Within {α : Type} (m : Mode) (p : CallM α) : Prop :=
  Obeys sessionMonitor p m fun _ m' => m' = m

section

variable {m : Mode} {α β : Type}

theorem within_pure (a : α) : Within m (pure a : CallM α) := rfl

theorem within_fail (e : Fault) : Within m (fail e : CallM α) := trivial

theorem permits_of_plainIn {o : Op} (h : o.plainIn m = true) :
    sessionMonitor.permits o m ∧ ∀ r, sessionMonitor.next o m r = m := by
  cases o with
  | backup c =>
    refine ⟨fun hc => ?_, fun r => rfl⟩
    simpa [Op.plainIn, hc] using h
  | rdlock => cases h
  | rdunlock => cases h
  | session => cases h
  | _ => exact ⟨trivial, fun r => rfl⟩

theorem within_call {o : Op} {f : o.Answer → CallM β} (h : o.plainIn m = true)
    (hf : ∀ r, Within m (f r)) : Within m (call o >>= f) := by
  obtain ⟨hp, hm⟩ := permits_of_plainIn h
  refine obeys_call hp fun r => ?_
  rw [hm r]
  exact hf r

theorem within_last {o : Op} (h : o.plainIn m = true) : Within m (call o : CallM o.Answer) := by
  obtain ⟨hp, hm⟩ := permits_of_plainIn h
  exact ⟨hp, hm⟩

theorem within_bind {p : CallM α} {f : α → CallM β} (hp : Within m p)
    (hf : ∀ a, Within m (f a)) : Within m (p >>= f) :=
  hp.bind fun a m' hm => by
    subst hm
    exact hf a

theorem within_onlyIf {c : Prop} [Decidable c] {body : CallM Unit} (h : Within m body) :
    Within m (onlyIf c body) := by
  unfold onlyIf
  split
  · exact h
  · exact within_pure ()

theorem within_reportNoMemory (e : Errno) (text : String) : Within m (reportNoMemory e text) :=
  within_onlyIf (within_last rfl)

/-! ## Outside or inside a session -/

theorem within_tryToRemoveDestination (file : Ptr) : Within m (tryToRemoveDestination file) := by
  unfold tryToRemoveDestination
  refine within_call rfl fun d => ?_
  split
  · exact within_pure ()
  · refine within_call rfl fun n => ?_
    split
    · exact within_pure ()
    · refine within_call rfl fun r => ?_
      split
      · exact within_call rfl fun _ => within_last rfl
      · exact within_last rfl

theorem within_removeReference (file : Ptr) : Within m (removeReference file) := by
  unfold removeReference
  refine within_call rfl fun (n : Nat) => ?_
  split
  · exact within_last rfl
  · exact within_fail _

theorem within_tableRemove (file : Ptr) : Within m (tableRemove file) := by
  unfold tableRemove
  refine within_call rfl fun n => ?_
  split
  · exact within_fail _
  · exact within_last rfl

theorem within_getOrCreate (file_name : Path) : Within m (getOrCreate file_name) := by
  unfold getOrCreate
  refine within_call rfl fun found => ?_
  split
  · exact within_call rfl fun _ => within_pure _
  · exact within_call rfl fun _ => within_call rfl fun _ => within_call rfl fun _ => within_pure _

theorem within_tryToRemove (file : Ptr) : Within m (tryToRemove file) := by
  unfold tryToRemove
  refine within_bind (within_removeReference file) fun _ => within_call rfl fun n => ?_
  split
  · refine within_bind (within_tryToRemoveDestination file) fun _ => ?_
    exact within_bind (within_tableRemove file) fun _ => within_last rfl
  · exact within_pure ()

theorem within_translatePrefixOfRealpath (D : DirectorySet) (absfile : Path) :
    Within m (translatePrefixOfRealpath D absfile) := by
  unfold translatePrefixOfRealpath
  split
  · exact within_pure _
  · exact within_fail _

theorem within_unlockRangeReporting (file : Ptr) (r : Range) :
    Within m (unlockRangeReporting file r) := by
  unfold unlockRangeReporting
  refine within_call rfl fun found => ?_
  split
  · exact within_pure _
  · exact within_call rfl fun _ => within_pure _

theorem within_finishUnlink (source : Ptr) : Within m (finishUnlink source) := by
  unfold finishUnlink
  refine within_call rfl fun _ => within_call rfl fun _ => ?_
  refine within_bind (within_tryToRemoveDestination source) fun _ => ?_
  exact within_call rfl fun _ => within_tryToRemove source

/-! ## Inside a session -/

theorem Inner.within {p : CallM α} (h : Inner p) : Within .inside p := by
  refine Performs.obeys h fun o ho => permits_of_plainIn ?_
  cases o with
  | backup c => simp [Op.plainIn]
  | rdlock => cases ho
  | rdunlock => cases ho
  | session => cases ho
  | _ => rfl

theorem within_tableRename (target : Ptr) (new_source_name dest : Path) :
    Within .inside (tableRename target new_source_name dest) := by
  unfold tableRename
  refine within_call rfl fun _ => within_bind (within_tableRemove target) fun _ => ?_
  refine within_bind (inner_sourceFileRename target new_source_name).within fun r => ?_
  split
  · exact within_call rfl fun _ => within_call rfl fun _ => within_pure _
  · refine within_call rfl fun d => ?_
    split
    · exact within_fail _
    · refine within_bind (inner_destinationRename target _ dest).within fun r => ?_
      split
      · exact within_call rfl fun _ => within_call rfl fun _ => within_pure _
      · exact within_call rfl fun _ => within_call rfl fun _ => within_pure _

theorem within_renameLocked (old_path new_path old_dest dest_path : Path) :
    Within .inside (renameLocked old_path new_path old_dest dest_path) := by
  unfold renameLocked
  refine within_call rfl fun _ => within_bind (within_getOrCreate old_path) fun target => ?_
  refine within_bind (inner_tryToCreateDestinationFile target old_dest).within fun r => ?_
  split
  · exact within_call rfl fun _ => within_pure _
  · refine within_bind (within_tableRename target new_path dest_path) fun r => ?_
    exact within_bind (within_tryToRemove target) fun _ => within_call rfl fun _ => within_pure _

theorem within_openCapture (fd : Nat) (file : Path) (D : DirectorySet) :
    Within .inside (openCapture fd file D) := by
  unfold openCapture
  refine within_call rfl fun source => ?_
  split
  · exact within_fail _
  · refine within_call rfl fun _ => within_call rfl fun _ => ?_
    refine within_bind (inner_captureOpen D file).within fun ⟨r, backup_file_name⟩ => ?_
    have hend : ∀ source : Ptr, Within .inside
        (unlock (.nameRead source) >>= fun _ => unlock .table : CallM Unit) :=
      fun source => within_call rfl fun _ => within_last rfl
    dsimp only
    split
    · exact hend _
    · split
      · exact hend _
      · refine within_bind (inner_tryToCreateDestinationFile _ _).within fun r => ?_
        split
        · exact within_call rfl fun _ => hend _
        · exact hend _

theorem within_captureRename (full_old_path newpath : Path) (D : DirectorySet) :
    Within .inside (captureRename full_old_path newpath D) := by
  unfold captureRename
  refine within_call rfl fun r => ?_
  split
  · exact within_reportNoMemory _ _
  · split
    · refine within_bind (within_translatePrefixOfRealpath D _) fun old => ?_
      refine within_bind (within_translatePrefixOfRealpath D _) fun new => ?_
      refine within_bind (within_renameLocked _ _ _ _) fun r => ?_
      split
      · exact within_pure _
      · exact within_last rfl
    · exact within_pure _

theorem within_truncateInSession (path full_path destination_file : Path) (length : Int) :
    Within .inside (truncateInSession path full_path destination_file length) := by
  unfold truncateInSession
  refine within_call rfl fun _ => within_call rfl fun found => ?_
  split
  · exact within_fail _
  · refine within_call rfl fun _ => within_call rfl fun _ => within_call rfl fun _ => ?_
    refine within_call rfl fun r => ?_
    refine within_bind (within_onlyIf (inner_captureTruncate _ _).within) fun _ => ?_
    refine within_bind (within_unlockRangeReporting _ _) fun unlocked => ?_
    refine within_bind (within_removeReference _) fun _ => ?_
    split
    · exact within_pure _
    · exact within_call rfl fun _ => within_pure _

end

/-! ## The interposed calls -/

section

variable {α : Type}

/-- What a block under the session lock may do when there is a session. -/
theorem within_withSession {body : DirectorySet → CallM Unit}
    (h : ∀ D, Within .inside (body D)) : Within .outside (withSession body) := by
  unfold withSession
  refine obeys_call rfl fun _ => obeys_call trivial fun D => ?_
  split
  · exact ⟨by simp [sessionMonitor], fun _ => rfl⟩
  · refine (h _).bind fun _ m' hm => ?_
    subst hm
    exact ⟨by simp [sessionMonitor], fun _ => rfl⟩

theorem within_managerOpen (fd : Nat) (file : Path) (flags : Nat) :
    Within .outside (managerOpen fd file flags) := by
  have htracked : Within .outside (openTracked fd file flags) := by
    unfold openTracked
    refine within_bind ?_ fun result => ?_
    · unfold setupDescriptionAndSourceFile
      refine within_call rfl fun r => ?_
      split
      · exact within_call rfl fun _ => within_pure _
      · refine within_call rfl fun _ => within_bind (within_getOrCreate _) fun source => ?_
        exact within_call rfl fun _ => within_call rfl fun _ =>
          within_call rfl fun _ => within_pure _
    · split
      · exact within_pure _
      · exact within_withSession (within_openCapture fd file)
  unfold managerOpen
  refine within_call rfl fun r => ?_
  split
  · exact within_call rfl fun _ => htracked
  · exact htracked
  · exact within_pure _

theorem within_managerClose (fd : Nat) : Within .outside (managerClose fd) := by
  unfold managerClose
  refine within_call rfl fun source => ?_
  split
  · exact within_pure _
  · refine within_bind (within_withSession fun _ => ?_) fun _ => ?_
    · refine within_call rfl fun _ => within_bind (within_tryToRemoveDestination _) fun _ => ?_
      exact within_last rfl
    · refine within_call rfl fun _ => within_call rfl fun _ => ?_
      exact within_bind (within_tryToRemove _) fun _ => within_last rfl

theorem within_managerWrite (fd : Nat) (buf : List UInt8) :
    Within .outside (managerWrite fd buf) := by
  unfold managerWrite
  refine within_call rfl fun file => ?_
  split
  · exact within_call rfl fun _ => within_pure _
  · refine within_call rfl fun _ => within_call rfl fun _ => within_call rfl fun _ => ?_
    refine within_call rfl fun r => within_bind (within_onlyIf (within_last rfl)) fun _ => ?_
    refine within_call rfl fun _ =>
      within_bind (within_withSession fun D => (inner_captureWrite _ _ _ D).within) fun _ => ?_
    exact within_bind (within_unlockRangeReporting _ _) fun _ => within_pure _

theorem within_managerRead (fd nbyte : Nat) : Within .outside (managerRead fd nbyte) := by
  unfold managerRead
  refine within_call rfl fun file => ?_
  split
  · exact within_call rfl fun _ => within_pure _
  · refine within_call rfl fun _ => within_call rfl fun r => ?_
    refine within_bind (within_onlyIf (within_last rfl)) fun _ => ?_
    exact within_call rfl fun _ => within_pure _

theorem within_managerPwrite (fd : Nat) (buf : List UInt8) (offset : Int) :
    Within .outside (managerPwrite fd buf offset) := by
  unfold managerPwrite
  refine within_call rfl fun file => ?_
  split
  · exact within_call rfl fun _ => within_pure _
  · refine within_call rfl fun _ => within_call rfl fun r => ?_
    dsimp only
    split
    · refine within_call rfl fun e => within_bind (within_unlockRangeReporting _ _) fun _ => ?_
      exact within_call rfl fun _ => within_pure _
    · refine within_bind (within_onlyIf
        (within_withSession fun D => (inner_captureWrite _ _ _ D).within)) fun _ => ?_
      exact within_bind (within_unlockRangeReporting _ _) fun _ => within_pure _

theorem within_managerLseek (fd : Nat) (offset : Int) (whence : Nat) :
    Within .outside (managerLseek fd offset whence) := by
  unfold managerLseek
  refine within_call rfl fun file => ?_
  split
  · exact within_call rfl fun _ => within_pure _
  · refine within_call rfl fun _ => within_call rfl fun r => ?_
    exact within_call rfl fun _ => within_call rfl fun _ => within_pure _

theorem within_managerRename (oldpath newpath : Path) :
    Within .outside (managerRename oldpath newpath) := by
  unfold managerRename
  refine within_call rfl fun r => ?_
  split
  · exact within_bind (within_reportNoMemory _ _) fun _ => within_call rfl fun _ => within_pure _
  · refine within_call rfl fun r => ?_
    refine within_bind (within_onlyIf (within_withSession (within_captureRename _ _))) fun _ => ?_
    exact within_pure _

/-- `unlink` looks at the session itself, after it has taken the lock. -/
theorem obeys_unlinkSection (full_path : Path) (source : Ptr) :
    Obeys sessionMonitor (unlinkSection full_path source) .locked fun _ m => m ≠ .outside := by
  unfold unlinkSection
  have hlocked : Obeys sessionMonitor (shouldCaptureUnlinkOfFile full_path) .locked
      fun D m => m ≠ .outside ∧ (D.isSome → m = .inside) := by
    unfold shouldCaptureUnlinkOfFile
    refine obeys_call trivial fun D => ?_
    cases D with
    | none => exact ⟨by simp [sessionMonitor], by simp⟩
    | some D =>
      refine obeys_call trivial fun b => ?_
      have hinside : sessionMonitor.next .captureIsEnabled
          (sessionMonitor.next .session .locked (some D)) b = .inside := rfl
      rw [hinside]
      split
      · split
        · exact ⟨by simp, fun _ => rfl⟩
        · exact ⟨by simp, fun _ => rfl⟩
      · exact ⟨by simp, fun _ => rfl⟩
  refine hlocked.bind fun D m hm => ?_
  split
  · exact (within_finishUnlink source).mono fun _ m' h => h ▸ hm.1
  · have hinside : m = .inside := hm.2 rfl
    subst hinside
    refine Obeys.mono (within_bind (inner_captureUnlink _ _ _).within fun b => ?_) fun _ m' h => ?_
    · split
      · exact within_finishUnlink source
      · exact within_pure _
    · rw [h]
      simp

theorem within_managerUnlink (path : Path) : Within .outside (managerUnlink path) := by
  unfold managerUnlink
  refine within_call rfl fun r => ?_
  split
  · exact within_bind (within_reportNoMemory _ _) fun _ => within_call rfl fun _ => within_pure _
  · refine within_call rfl fun r => ?_
    dsimp only
    split
    · exact within_pure _
    · refine within_call rfl fun _ => within_bind (within_getOrCreate _) fun source => ?_
      refine within_call rfl fun _ => obeys_call rfl fun _ => obeys_call trivial fun _ => ?_
      refine (obeys_unlinkSection _ source).bind fun _ m hm => obeys_call trivial fun _ => ?_
      exact ⟨hm, fun _ => rfl⟩

theorem within_managerFtruncate (fd : Nat) (length : Int) :
    Within .outside (managerFtruncate fd length) := by
  unfold managerFtruncate
  refine within_call rfl fun file => ?_
  split
  · exact within_call rfl fun _ => within_pure _
  · refine within_call rfl fun _ => within_call rfl fun r => ?_
    dsimp only
    split
    · refine within_bind
        (within_withSession fun D => (inner_captureFtruncate _ _ D).within) fun _ => ?_
      exact within_bind (within_unlockRangeReporting _ _) fun _ => within_pure _
    · refine within_call rfl fun e => within_bind (within_unlockRangeReporting _ _) fun _ => ?_
      exact within_call rfl fun _ => within_pure _

theorem within_managerTruncate (path : Path) (length : Int) :
    Within .outside (managerTruncate path length) := by
  unfold managerTruncate
  refine within_call rfl fun r => ?_
  split
  · exact within_call rfl fun _ => within_call rfl fun _ => within_pure _
  · -- the lock is given back in the end, whatever was found
    have hend : ∀ (m : Mode) (v : Int), m ≠ .outside →
        Obeys sessionMonitor (rdunlock >>= fun _ => pure v : CallM Int) m fun _ m' =>
          m' = .outside :=
      fun m v hm => obeys_call hm fun _ => rfl
    refine obeys_call rfl fun _ => obeys_call trivial fun D => ?_
    split
    · split
      · refine Obeys.bind (within_translatePrefixOfRealpath _ _) fun destination_file m hm => ?_
        subst hm
        refine Obeys.bind (within_truncateInSession _ _ _ _) fun user_error m hm => ?_
        subst hm
        exact hend _ _ (by simp)
      · exact obeys_call trivial fun r => hend _ _ (by simp [sessionMonitor])
    · exact obeys_call trivial fun r => hend _ _ (by simp [sessionMonitor])

theorem within_managerMkdir (pathname : Path) : Within .outside (managerMkdir pathname) := by
  unfold managerMkdir
  refine obeys_call rfl fun _ => obeys_call trivial fun D => ?_
  split
  · exact ⟨by simp [sessionMonitor], fun _ => rfl⟩
  · refine (inner_captureMkdir _ pathname).within.bind fun r m hm => ?_
    subst hm
    have hend : Obeys sessionMonitor (rdunlock : CallM Unit) .inside fun _ m => m = .outside :=
      ⟨by simp [sessionMonitor], fun _ => rfl⟩
    split
    · exact obeys_call trivial fun _ => hend
    · exact hend

theorem within_ifAlive {method : CallM Unit} (h : Within .outside method) :
    Within .outside (ifAlive method) := by
  unfold ifAlive
  refine within_call rfl fun b => ?_
  split
  · exact h
  · exact within_pure _

theorem within_whenAlive (c : AppCall) {method : CallM Int} (h : Within .outside method) :
    Within .outside (whenAlive c method) := by
  unfold whenAlive
  refine within_call rfl fun b => ?_
  split
  · exact h
  · exact within_call rfl fun _ => within_pure _

theorem within_interposedOpen (file : Path) (oflag : Nat) (creat : Bool) (mode : Option Nat) :
    Within .outside (interposedOpen file oflag creat mode) := by
  have hopen : ∀ fd, Within .outside (ifAlive (managerOpen fd file oflag)) :=
    fun fd => within_ifAlive (within_managerOpen fd file oflag)
  unfold interposedOpen
  split
  · refine within_call rfl fun _ => within_call rfl fun r => ?_
    refine within_bind (within_onlyIf (hopen _)) fun _ => ?_
    exact within_call rfl fun _ => within_pure _
  · refine within_call rfl fun r => ?_
    dsimp only
    split
    · refine within_call rfl fun r => ?_
      split
      · exact within_pure _
      · exact within_bind (within_onlyIf (hopen _)) fun _ => within_pure _
    · exact within_pure _

/-- Every interposed call keeps to the session lock. -/
theorem within_interposed (c : AppCall) : Within .outside (interposed c) := by
  have hfileOp : ∀ {p : CallM Int}, Within .outside p → Within .outside (do
      lock .fileOp
      let r ← p
      unlock .fileOp
      return r) := by
    intro p hp
    refine within_call rfl fun _ => within_bind hp fun r => ?_
    exact within_call rfl fun _ => within_pure _
  cases c with
  | openFile file oflag creat mode => exact within_interposedOpen file oflag creat mode
  | close fd =>
    refine within_bind (within_ifAlive (within_managerClose fd)) fun _ => ?_
    exact within_call rfl fun _ => within_pure _
  | read fd nbyte => exact within_whenAlive _ (within_managerRead fd nbyte)
  | write fd buf => exact within_whenAlive _ (within_managerWrite fd buf)
  | pwrite fd buf offset => exact within_whenAlive _ (within_managerPwrite fd buf offset)
  | lseek fd offset whence => exact within_whenAlive _ (within_managerLseek fd offset whence)
  | ftruncate fd length => exact within_whenAlive _ (within_managerFtruncate fd length)
  | truncate path length => exact within_whenAlive _ (within_managerTruncate path length)
  | rename oldpath newpath => exact within_whenAlive _ (hfileOp (within_managerRename _ _))
  | unlink path => exact within_whenAlive _ (hfileOp (within_managerUnlink path))
  | mkdir pathname mode =>
    refine within_call rfl fun r => ?_
    refine within_bind (within_onlyIf (within_ifAlive (within_managerMkdir pathname))) fun _ => ?_
    exact within_pure _

end

/-! ## The machine -/

/-- Where `do_backup` stands with the session. -/
inductive Backup where
  | idle
  /-- The session lock is held for writing, and `m_session` is about to be set. -/
  | starting
  /-- `prepare_directories_for_backup` runs. -/
  | preparing
  | running
  /-- The session lock is held for writing again. -/
  | ending
  /-- `m_session` has been set to null, the lock is still held. -/
  | ended
  deriving DecidableEq

/-- The session lock is held for writing. -/
def Backup.exclusive : Backup → Bool
  | .idle => false
  | .running => false
  | _ => true

structure State where
  session : Option DirectorySet
  /-- The threads that hold the session lock for reading. -/
  readers : Finset Nat
  backup : Backup
  /-- What each thread still has to do. -/
  threads : Nat → CallM Int

inductive Action where
  /-- Thread `i` makes a call. -/
  | call (i : Nat) (c : AppCall)
  /-- Thread `i` performs its next operation. -/
  | perform (i : Nat) (e : Event)
  | lockStart
  | createSession (D : DirectorySet)
  | prepared
  | lockEnd
  | deleteSession
  | unlockEnd

/-- The answer to an operation: the session is what it is, everything else as the action
says. -/
def State.answer (s : State) (e : Event) : e.1.Answer :=
  match e with
  | ⟨.session, _⟩ => s.session
  | ⟨_, r⟩ => r

/-- The threads that read, after thread `i` has performed the operation. -/
def State.readersAfter (s : State) (i : Nat) : Op → Finset Nat
  | .rdlock => insert i s.readers
  | .rdunlock => s.readers.erase i
  | _ => s.readers

def stepThread (s : State) (i : Nat) (e : Event) : Option State :=
  match s.threads i with
  | .step o k =>
    if h : e.1 = o then
      if e.1 = .rdlock ∧ s.backup.exclusive then none
      else
        some { s with
          readers := s.readersAfter i e.1
          threads := Function.update s.threads i (k (h ▸ s.answer e)) }
    else none
  | _ => none

def step (s : State) : Action → Option State
  | .call i c =>
    match s.threads i with
    | .done _ => some { s with threads := Function.update s.threads i (interposed c) }
    | _ => none
  | .perform i e => stepThread s i e
  | .lockStart =>
    if s.backup = .idle ∧ s.readers = ∅ then some { s with backup := .starting } else none
  | .createSession D =>
    if s.backup = .starting then some { s with session := some D, backup := .preparing } else none
  | .prepared => if s.backup = .preparing then some { s with backup := .running } else none
  | .lockEnd =>
    if s.backup = .running ∧ s.readers = ∅ then some { s with backup := .ending } else none
  | .deleteSession =>
    if s.backup = .ending then some { s with session := none, backup := .ended } else none
  | .unlockEnd => if s.backup = .ended then some { s with backup := .idle } else none

/-- No session is active and no call is in flight. -/
structure Initial (s : State) : Prop where
  session : s.session = none
  readers : s.readers = ∅
  backup : s.backup = .idle
  threads : ∀ i, ∃ v, s.threads i = .done v

/-! ## The invariant -/

/-- The modes of the threads fit what the threads still do and the session lock. -/
structure Modes (s : State) (mode : Nat → Mode) : Prop where
  obeys : ∀ i, Obeys sessionMonitor (s.threads i) (mode i) fun _ m => m = .outside
  readers : ∀ i, i ∈ s.readers ↔ mode i ≠ .outside
  session : ∀ i, mode i = .inside → s.session.isSome

structure Inv (s : State) : Prop where
  modes : ∃ mode, Modes s mode
  lock : s.backup.exclusive = true → s.readers = ∅

theorem inv_initial {s : State} (h : Initial s) : Inv s := by
  refine ⟨⟨fun _ => .outside, fun i => ?_, fun i => ?_, fun i hi => ?_⟩, fun _ => h.readers⟩
  · obtain ⟨v, hv⟩ := h.threads i
    rw [hv]
    rfl
  · rw [h.readers]
    simp
  · cases hi

/-- The mode of one thread changes with its program, its hold on the lock and the session. -/
theorem Modes.update {s : State} {mode : Nat → Mode} (h : Modes s mode) {i : Nat} {m : Mode}
    {p : CallM Int} {readers : Finset Nat} (hp : Obeys sessionMonitor p m fun _ m => m = .outside)
    (hself : i ∈ readers ↔ m ≠ .outside) (hother : ∀ j, j ≠ i → (j ∈ readers ↔ j ∈ s.readers))
    (hinside : m = .inside → s.session.isSome) :
    Modes { s with readers, threads := Function.update s.threads i p }
      (Function.update mode i m) := by
  refine ⟨fun j => ?_, fun j => ?_, fun j => ?_⟩
  · by_cases hj : j = i
    · subst hj
      simpa using hp
    · simpa [Function.update_of_ne hj] using h.obeys j
  · by_cases hj : j = i
    · subst hj
      simpa using hself
    · rw [Function.update_of_ne hj]
      exact (hother j hj).trans (h.readers j)
  · by_cases hj : j = i
    · subst hj
      simpa using hinside
    · rw [Function.update_of_ne hj]
      exact h.session j

/-- An operation takes the mode of its thread along. -/
theorem inv_perform {s t : State} {i : Nat} {e : Event} (h : Inv s)
    (hstep : stepThread s i e = some t) : Inv t := by
  obtain ⟨⟨mode, hmode⟩, hlock⟩ := h
  obtain ⟨o, r⟩ := e
  have hobeys := hmode.obeys i
  rw [stepThread] at hstep
  cases hp : s.threads i with
  | done v => rw [hp] at hstep; cases hstep
  | fail e => rw [hp] at hstep; cases hstep
  | step o' k =>
    rw [hp] at hstep hobeys
    dsimp only at hstep
    split at hstep
    · rename_i ho
      subst ho
      split at hstep
      · cases hstep
      · rename_i hfree
        cases hstep
        obtain ⟨hpermits, hnext⟩ := hobeys
        have hnext := hnext (s.answer ⟨o, r⟩)
        refine ⟨⟨_, hmode.update hnext ?_ ?_ ?_⟩, ?_⟩
        · -- the lock is held exactly outside the mode `outside`
          cases o with
          | rdlock => simp [State.readersAfter, sessionMonitor]
          | rdunlock => simp [State.readersAfter, sessionMonitor]
          | session =>
            change i ∈ s.readers ↔ (if mode i = .outside then Mode.outside
              else if s.session.isSome then .inside else .locked) ≠ .outside
            rw [hmode.readers i]
            split_ifs with h1 h2 <;> simp_all
          | _ => exact hmode.readers i
        · intro j hj
          cases o with
          | rdlock => simp [State.readersAfter, hj]
          | rdunlock => simp [State.readersAfter, hj]
          | _ => exact Iff.rfl
        · cases o with
          | rdlock => simp [sessionMonitor]
          | rdunlock => simp [sessionMonitor]
          | session =>
            change (if mode i = .outside then Mode.outside
              else if s.session.isSome then .inside else .locked) = .inside → s.session.isSome
            split_ifs with h1 h2 <;> simp_all
          | _ => exact hmode.session i
        · intro hex
          have hempty := hlock hex
          cases o with
          | rdlock => exact absurd ⟨rfl, hex⟩ hfree
          | rdunlock => simp [State.readersAfter, hempty]
          | _ => exact hempty
    · cases hstep

theorem inv_step {s t : State} {a : Action} (h : Inv s) (hstep : step s a = some t) : Inv t := by
  obtain ⟨⟨mode, hmode⟩, hlock⟩ := h
  -- nobody knows of a session while nobody holds the lock
  have hclosed : ∀ session backup, s.readers = ∅ →
      Modes { s with session, backup } mode := by
    intro session backup hempty
    refine ⟨hmode.obeys, hmode.readers, fun i hi => ?_⟩
    have hreads := (hmode.readers i).mpr (by rw [hi]; simp)
    rw [hempty] at hreads
    cases hreads
  cases a with
  | call i c =>
    simp only [step] at hstep
    split at hstep
    · rename_i v hv
      cases hstep
      have hout := hmode.obeys i
      rw [hv] at hout
      refine ⟨⟨_, hmode.update (within_interposed c) ?_ (fun _ _ => Iff.rfl) (by simp)⟩, hlock⟩
      rw [hmode.readers i, show mode i = .outside from hout]
    · cases hstep
  | perform i e => exact inv_perform ⟨⟨mode, hmode⟩, hlock⟩ hstep
  | lockStart =>
    obtain ⟨⟨-, hempty⟩, ht⟩ := Option.ite_none_right_eq_some.mp hstep
    cases ht
    exact ⟨⟨mode, hclosed _ _ hempty⟩, fun _ => hempty⟩
  | createSession D =>
    obtain ⟨hpc, ht⟩ := Option.ite_none_right_eq_some.mp hstep
    cases ht
    have hempty := hlock (by rw [hpc]; rfl)
    exact ⟨⟨mode, hclosed _ _ hempty⟩, fun _ => hempty⟩
  | prepared =>
    obtain ⟨hpc, ht⟩ := Option.ite_none_right_eq_some.mp hstep
    cases ht
    have hempty := hlock (by rw [hpc]; rfl)
    exact ⟨⟨mode, hclosed _ _ hempty⟩, fun _ => hempty⟩
  | lockEnd =>
    obtain ⟨⟨-, hempty⟩, ht⟩ := Option.ite_none_right_eq_some.mp hstep
    cases ht
    exact ⟨⟨mode, hclosed _ _ hempty⟩, fun _ => hempty⟩
  | deleteSession =>
    obtain ⟨hpc, ht⟩ := Option.ite_none_right_eq_some.mp hstep
    cases ht
    have hempty := hlock (by rw [hpc]; rfl)
    exact ⟨⟨mode, hclosed _ _ hempty⟩, fun _ => hempty⟩
  | unlockEnd =>
    obtain ⟨hpc, ht⟩ := Option.ite_none_right_eq_some.mp hstep
    cases ht
    have hempty := hlock (by rw [hpc]; rfl)
    exact ⟨⟨mode, hclosed _ _ hempty⟩, fun _ => hempty⟩

/-! ## The main result -/

/-- In every run, in every state without a session, no thread can issue a call that changes
the backup. -/
theorem nothing_after_session {s t : State} {as : List Action} (hs : Initial s)
    (hrun : run step s as = some t) (hclosed : t.session = none) (i : Nat) (c : BackupCall)
    (hc : c.Changes = true) (r : Except Errno Nat) : step t (.perform i ⟨.backup c, r⟩) = none := by
  obtain ⟨⟨mode, hmode⟩, -⟩ := run_invariant_all (fun s a s' => inv_step) (inv_initial hs) hrun
  have hobeys := hmode.obeys i
  simp only [step, stepThread]
  cases hp : t.threads i with
  | done v => rfl
  | fail e => rfl
  | step o k =>
    rw [hp] at hobeys
    dsimp only
    split
    · rename_i ho
      subst ho
      have hinside := hmode.session i (hobeys.1 hc)
      rw [hclosed] at hinside
      cases hinside
    · rfl

/-- No session, and no call in flight. -/
def quiet : State := ⟨none, ∅, .idle, fun _ => .done 0⟩

/-- A thread makes a directory during a session, and the session ends before it has taken
the session lock. -/
def lateMkdir : List Action :=
  [.lockStart, .createSession ⟨[("/s".toList, "/b".toList)], fun _ => false⟩, .prepared, .call 0
    (.mkdir "/s/d".toList 0),
    .perform 0 ⟨.real (.mkdir "/s/d".toList 0), .ok 0⟩, .perform 0 ⟨.isAlive, true⟩, .lockEnd,
    .deleteSession, .unlockEnd]

theorem nothing_after_session_lateMkdir : ∃ t, run step quiet lateMkdir = some t ∧
    step t (.perform 0 ⟨.backup (.mkdir "/b/d".toList), .ok 0⟩) = none := by
  have hquiet : Initial quiet := ⟨rfl, rfl, rfl, fun _ => ⟨0, rfl⟩⟩
  have hrun : ∃ t, run step quiet lateMkdir = some t ∧ t.session = none := ⟨_, rfl, rfl⟩
  obtain ⟨t, hrun, hclosed⟩ := hrun
  exact ⟨t, hrun, nothing_after_session hquiet hrun hclosed 0 _ rfl _⟩

end TokuBackup.Interpose
