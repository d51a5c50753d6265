import TokuBackup.BackupThread.Model

/-!
# What the backup thread gives back

Whatever fails, `do_backup` gives back what it has taken: the locks, what `opendir` has left to
be closed, the references to source files and the session. On the way no lock is taken twice or
given up by someone who does not have it, and `Op.Proper` lists what the other operations need.

After `ENOENT` `copy_full_path` goes on with a null pointer for a directory handle, and calls
`readdir` and `closedir` with it; this is the only null pointer that they get. That a source fd
is closed once is not said here, since it does not hold. The pointers that the source reads
without a lock, the destination in `copy_file_data` and `possibly_sleep_or_abort` and `m_session`
around the copying, are no operations.
-/

namespace TokuBackup.BackupThread

open Kernel Lib Prog
open DoBackup (Errno FileKind CopyResult isDot)

/-! ## What the thread has -/

structure Owned where
  locks : List Lock
  /-- What `opendir` has left to be closed: handles, and null pointers after `ENOENT`. -/
  dirs : List (Option Nat)
  references : Nat
  session : Bool
  deriving DecidableEq

namespace Owned

def nothing : Owned := ⟨[], [], 0, false⟩

variable (w : Owned)

def hold (l : Lock) : Owned := { w with locks := l :: w.locks }

def opened (dir : Option Nat) : Owned := { w with dirs := dir :: w.dirs }

def refer : Owned := { w with references := w.references + 1 }

def withSession : Owned := { w with session := true }

def InRange : Prop := .fd ∈ w.locks ∧ ∃ start stop, .range start stop ∈ w.locks

/-- `m_session` points to a session, and nobody else uses it. -/
def InSession : Prop := .session ∈ w.locks ∧ w.session = true

def after (w : Owned) : Event → Owned
  | ⟨.lock l, _⟩ => w.hold l
  | ⟨.unlock l, _⟩ => { w with locks := w.locks.erase l }
  | ⟨.unlockRange start stop, _⟩ => { w with locks := w.locks.erase (.range start stop) }
  | ⟨.trylock, none⟩ => w.hold .mutex
  | ⟨.opendir _, .ok dir⟩ => w.opened (some dir)
  | ⟨.opendir _, .error e⟩ => if e = .enoent then w.opened none else w
  | ⟨.closedir dir, _⟩ => { w with dirs := w.dirs.erase dir }
  | ⟨.getOrCreateLocked _, _⟩ => w.refer
  | ⟨.tryToRemoveLocked, _⟩ => { w with references := w.references - 1 }
  | ⟨.createSession, _⟩ => w.withSession
  | ⟨.endSession, _⟩ => { w with session := false }
  | _ => w

end Owned

/-- The thread has what it needs for the operation. -/
def Op.Proper (w : Owned) : Op → Prop
  | .lock l => l ∉ w.locks
  | .unlock l => l ∈ w.locks
  | .unlockRange start stop => .range start stop ∈ w.locks
  | .trylock => .mutex ∉ w.locks
  | .validate => .mutex ∈ w.locks
  | .createSession => .session ∈ w.locks ∧ .todo ∈ w.locks ∧ w.session = false
  | .prepareDirectories => w.InSession ∧ .table ∉ w.locks
  | .enable => w.InSession
  | .endSession => w.InSession ∧ .todo ∉ w.locks
  | .todoPush _ => .todo ∈ w.locks
  | .todoSize => .todo ∈ w.locks
  | .todoFront => .todo ∈ w.locks
  | .todoPop => .todo ∈ w.locks
  | .todoCleanup => .todo ∈ w.locks
  | .readdir dir => dir ∈ w.dirs
  | .closedir dir => dir ∈ w.dirs
  | .getOrCreateLocked _ => .table ∉ w.locks
  | .tryToRemoveLocked => .table ∉ w.locks ∧ 0 < w.references
  | .directIo => .fd ∈ w.locks
  | .read _ => w.InRange
  | .write _ => w.InRange
  | .tryToCreateDestinationFile _ => .table ∈ w.locks ∧ .name ∈ w.locks
  | .hasDestination => .name ∈ w.locks
  | .tryToRemoveDestination => .table ∈ w.locks
  | _ => True

def owned : Monitor Op.Answer Owned where
  permits o w := o.Proper w
  next o w r := w.after ⟨o, r⟩

/-! ## Rules -/

section

variable {α β : Type} {held : List Lock} {w : Owned} {l : Lock} {o : Op} {Q : β → Owned → Prop}
  {p : BackupM α} {f : α → BackupM β}

@[simp] theorem Owned.hold_locks : (w.hold l).locks = l :: w.locks := rfl

/-- With the locks `held`, the part does what is proper and gives back what it takes. -/
def Tidy (held : List Lock) (p : BackupM α) : Prop :=
  ∀ w : Owned, w.locks = held → Obeys owned p w fun _ w' => w' = w

theorem tidy_pure (a : α) : Tidy held (pure a) := fun _ _ => rfl

theorem tidy_fail (e : Stop) : Tidy held (fail e : BackupM α) := fun _ _ => trivial

theorem Tidy.obeys (h : Tidy held p) (hw : w.locks = held) (hf : ∀ a, Obeys owned (f a) w Q) :
    Obeys owned (p >>= f) w Q := by
  refine (h w hw).bind fun a w' hw' => ?_
  rw [hw']
  exact hf a

theorem Tidy.bind (h : Tidy held p) (hf : ∀ a, Tidy held (f a)) : Tidy held (p >>= f) :=
  fun w hw => h.obeys hw fun a => hf a w hw

/-- An operation that takes and gives back nothing. -/
theorem obeys_plain {f : o.Answer → BackupM β} (hproper : o.Proper w)
    (hnext : ∀ r, w.after ⟨o, r⟩ = w) (hf : ∀ r, Obeys owned (f r) w Q) :
    Obeys owned (call o >>= f) w Q := by
  refine obeys_call hproper fun r => ?_
  have hsame : owned.next o w r = w := hnext r
  rw [hsame]
  exact hf r

theorem tidy_plain {f : o.Answer → BackupM β} (hproper : ∀ w : Owned, w.locks = held → o.Proper w)
    (hnext : ∀ w r, Owned.after w ⟨o, r⟩ = w) (hf : ∀ r, Tidy held (f r)) :
    Tidy held (call o >>= f) :=
  fun w hw => obeys_plain (hproper w hw) (hnext w) fun r => hf r w hw

theorem tidy_last (hproper : ∀ w : Owned, w.locks = held → o.Proper w)
    (hnext : ∀ w r, Owned.after w ⟨o, r⟩ = w) : Tidy held (call o : BackupM o.Answer) :=
  tidy_plain hproper hnext tidy_pure

theorem tidy_reportError (errnum : Int) (text : String) (a : α) :
    Tidy held (reportError errnum text >>= fun _ => pure a) :=
  tidy_plain (fun _ _ => trivial) (fun _ _ => rfl) fun _ => tidy_pure a

theorem tidy_backupError (errnum : Int) (text : String) (a : α) :
    Tidy held (backupError errnum text >>= fun _ => pure a) :=
  tidy_plain (fun _ _ => trivial) (fun _ _ => rfl) fun _ => tidy_pure a

theorem obeys_lock {f : Unit → BackupM β} (hl : l ∉ w.locks)
    (hf : Obeys owned (f ()) (w.hold l) Q) : Obeys owned (lock l >>= f) w Q :=
  obeys_call hl fun _ => hf

theorem hold_erase : { w.hold l with locks := (w.hold l).locks.erase l } = w := by
  rw [Owned.hold_locks, List.erase_cons_head]
  rfl

theorem obeys_unlock {f : Unit → BackupM β} (hf : Obeys owned (f ()) w Q) :
    Obeys owned (unlock l >>= f) (w.hold l) Q := by
  refine obeys_call List.mem_cons_self fun r => ?_
  have hback : owned.next (.unlock l) (w.hold l) r = w := hold_erase
  rw [hback]
  exact hf

theorem obeys_unlockRange {start stop : Nat} {f : Option Errno → BackupM β}
    (hf : ∀ r, Obeys owned (f r) w Q) :
    Obeys owned (unlockRange start stop >>= f) (w.hold (.range start stop)) Q := by
  refine obeys_call List.mem_cons_self fun r => ?_
  have hback : owned.next (.unlockRange start stop) (w.hold (.range start stop)) r = w := hold_erase
  rw [hback]
  exact hf r

theorem tidy_onlyWith {flag : Bool} {a : α} (h : Tidy held p) : Tidy held (onlyWith flag a p) := by
  rw [onlyWith]
  split
  · exact h
  · exact tidy_pure a

/-! ## Copying a file -/

theorem inRange_of_locks {start stop : Nat} (hw : w.locks = [.fd, .range start stop, .mutex]) :
    w.InRange := by
  refine ⟨?_, start, stop, ?_⟩
  · rw [hw]
    exact List.mem_cons_self
  · rw [hw]
    exact List.mem_cons_of_mem _ List.mem_cons_self

theorem tidy_writeBuffer (start stop n_read rounds n_wrote_this_buf : Nat) (n_wrote_now : Int)
    (total : Nat) :
    Tidy [.fd, .range start stop, .mutex]
      (writeBuffer n_read rounds n_wrote_this_buf n_wrote_now total) := by
  induction rounds generalizing n_wrote_this_buf n_wrote_now total with
  | zero => exact tidy_fail _
  | succ rounds ih =>
    rw [writeBuffer]
    split
    · refine tidy_plain (fun _ _ => trivial) (fun _ _ => rfl) fun (r : Int) => ?_
      split
      · exact tidy_reportError _ _ _
      · refine tidy_plain (fun _ hw => inRange_of_locks hw) (fun _ _ => rfl)
          fun (r : Except Errno Nat) => ?_
        cases r with
        | error e => exact tidy_reportError _ _ _
        | ok n => exact ih _ _ _
    · exact tidy_pure _

theorem tidy_copyFileRange (start stop rounds : Nat) (src_info : SourceInfo) (total : Nat) :
    Tidy [.fd, .range start stop, .mutex] (copyFileRange rounds src_info total) := by
  rw [copyFileRange]
  refine tidy_plain (fun _ hw => inRange_of_locks hw) (fun _ _ => rfl)
    fun (r : Except Errno Nat) => ?_
  cases r with
  | error e => exact tidy_reportError _ _ _
  | ok n_read =>
    dsimp only
    split
    · exact tidy_pure _
    · exact tidy_writeBuffer _ _ _ _ _ _ _

theorem tidy_openAgain (start stop rounds : Nat) (src_info : SourceInfo) (total : Nat)
    (result : Int) :
    Tidy [.fd, .range start stop, .mutex] (openAgain rounds src_info total result) := by
  have hfd : ∀ w : Owned, w.locks = [.fd, .range start stop, .mutex] → Op.Proper w .directIo :=
    fun _ hw => (inRange_of_locks hw).1
  rw [openAgain]
  refine tidy_plain hfd (fun _ _ => rfl) fun (direct : Bool) => ?_
  refine tidy_plain (fun _ _ => trivial) (fun _ _ => rfl) fun (r : Except Errno Nat) => ?_
  cases r with
  | error e =>
    dsimp only
    split
    · exact tidy_pure _
    · exact tidy_backupError _ _ _
  | ok fd =>
    refine tidy_plain (fun _ _ => trivial) (fun _ _ => rfl) fun (r : Option Errno) => ?_
    cases r with
    | some e => exact tidy_backupError _ _ _
    | none => exact tidy_copyFileRange _ _ _ _ _

theorem tidy_openAndLock (start stop rounds : Nat) (src_info : SourceInfo) (total : Nat) :
    Tidy [.range start stop, .mutex] (openAndLockFileThenCopyRange rounds src_info total) := by
  intro w hw
  have hheld : (w.hold .fd).locks = [.fd, .range start stop, .mutex] := by rw [Owned.hold_locks, hw]
  rw [openAndLockFileThenCopyRange]
  refine obeys_lock (by simp [hw]) ?_
  refine obeys_plain (inRange_of_locks hheld).1 (fun _ => rfl) fun (direct : Bool) => ?_
  split
  · refine obeys_plain trivial (fun _ => rfl) fun (r : Option Errno) => ?_
    cases r with
    | some e =>
      refine obeys_plain trivial (fun _ => rfl) fun _ => ?_
      exact (tidy_openAgain _ _ _ _ _ _).obeys hheld fun _ => obeys_unlock rfl
    | none => exact (tidy_openAgain _ _ _ _ _ _).obeys hheld fun _ => obeys_unlock rfl
  · exact (tidy_copyFileRange _ _ _ _ _).obeys hheld fun _ => obeys_unlock rfl

theorem tidy_possiblySleepOrAbort (held : List Lock) (rounds : Nat) :
    Tidy held (possiblySleepOrAbort rounds) := by
  induction rounds with
  | zero => exact tidy_fail _
  | succ rounds ih =>
    rw [possiblySleepOrAbort]
    refine tidy_plain (fun _ _ => trivial) (fun _ _ => rfl) fun (enabled : Bool) => ?_
    split
    · refine tidy_plain (fun _ _ => trivial) (fun _ _ => rfl) fun (r : Option Errno) => ?_
      cases r with
      | some e => exact tidy_reportError _ _ _
      | none =>
        refine tidy_plain (fun _ _ => trivial) (fun _ _ => rfl) fun (pause : Bool) => ?_
        split
        · refine tidy_plain (fun _ _ => trivial) (fun _ _ => rfl) fun (r : Int) => ?_
          split
          · exact tidy_reportError _ _ _
          · refine tidy_plain (fun _ _ => trivial) (fun _ _ => rfl) fun _ => ?_
            refine tidy_plain (fun _ _ => trivial) (fun _ _ => rfl) fun (enabled : Bool) => ?_
            split
            · exact ih
            · exact tidy_pure _
        · exact tidy_pure _
    · exact tidy_pure _

theorem tidy_copyRanges (rounds : Nat) (src_info : SourceInfo) (n total : Nat) :
    Tidy [.mutex] (copyRanges rounds src_info n total) := by
  induction n generalizing total with
  | zero => exact tidy_fail _
  | succ n ih =>
    rw [copyRanges]
    refine tidy_plain (fun _ _ => trivial) (fun _ _ => rfl) fun (enabled : Bool) => ?_
    split
    · intro w hw
      refine obeys_lock (by simp [hw]) ?_
      refine (tidy_openAndLock _ _ _ _ _).obeys (congrArg _ hw) fun result => ?_
      refine obeys_unlockRange fun (r : Option Errno) => ?_
      cases r with
      | some e => rfl
      | none =>
        dsimp only
        split
        · rfl
        · refine (tidy_possiblySleepOrAbort _ rounds).obeys hw fun (r : Int) => ?_
          split
          · rfl
          · exact ih _ w hw
    · exact tidy_pure _

theorem tidy_copyFileData (rounds : Nat) (src_info : SourceInfo) :
    Tidy [.mutex] (copyFileData rounds src_info) := by
  rw [copyFileData]
  refine tidy_plain (fun _ _ => trivial) (fun _ _ => rfl) fun (r : Option Errno) => ?_
  cases r with
  | some e => exact tidy_reportError _ _ _
  | none => exact tidy_copyRanges _ _ _ _

theorem tidy_removeDestination : Tidy [.table, .mutex] removeDestination := by
  have htable : ∀ w : Owned, w.locks = [.table, .mutex] → Op.Proper w .tryToRemoveDestination := by
    intro w hw
    change .table ∈ w.locks
    rw [hw]
    exact List.mem_cons_self
  rw [removeDestination]
  refine tidy_plain htable (fun _ _ => rfl) fun (r : Option Errno) => ?_
  cases r with
  | some e => exact tidy_last (fun _ _ => trivial) fun _ _ => rfl
  | none => exact tidy_pure _

theorem tidy_createDestination (src dest : Path) : Tidy [.mutex] (createDestination src dest) := by
  intro w hw
  have hheld : ((w.hold .table).hold .name).locks = [.name, .table, .mutex] := by simp [hw]
  have hcreate : ∀ w : Owned, w.locks = [.name, .table, .mutex] →
      Op.Proper w (.tryToCreateDestinationFile dest) := by
    intro w hw
    change .table ∈ w.locks ∧ .name ∈ w.locks
    rw [hw]
    decide
  have hname : Op.Proper ((w.hold .table).hold .name) .hasDestination := List.mem_cons_self
  rw [createDestination]
  refine obeys_lock (by simp [hw]) (obeys_lock (by simp [hw]) ?_)
  refine obeys_plain trivial (fun _ => rfl) fun (found : Bool) => ?_
  refine (tidy_onlyWith (tidy_last hcreate fun _ _ => rfl)).obeys hheld fun (r : Option Errno) => ?_
  refine obeys_plain hname (fun _ => rfl) fun (dest : Bool) => ?_
  exact obeys_unlock (obeys_unlock rfl)

theorem tidy_createDestinationAndCopy (rounds : Nat) (src_info : SourceInfo) (dest : Path) :
    Tidy [.mutex] (createDestinationAndCopy rounds src_info dest) := by
  rw [createDestinationAndCopy]
  refine (tidy_createDestination _ _).bind fun created => ?_
  obtain ⟨error, source_exists⟩ := created
  cases error with
  | some e => exact tidy_pure _
  | none =>
    refine (tidy_onlyWith (tidy_copyFileData rounds src_info)).bind fun (r : Int) => ?_
    split
    · exact tidy_pure _
    · intro w hw
      refine obeys_lock (by simp [hw]) ?_
      exact tidy_removeDestination.obeys (congrArg _ hw) fun _ => obeys_unlock rfl

theorem tidy_copyRegularFile (rounds : Nat) (src dest : Path) :
    Tidy [.mutex] (copyRegularFile rounds src dest) := by
  intro w hw
  have hfd : Op.Proper (w.hold .fd) .directIo := List.mem_cons_self
  rw [copyRegularFile]
  refine obeys_lock (by simp [hw]) ?_
  refine obeys_plain hfd (fun _ => rfl) fun (direct : Bool) => obeys_unlock ?_
  refine obeys_plain trivial (fun _ => rfl) fun (r : Except Errno Nat) => ?_
  cases r with
  | error e =>
    dsimp only
    split
    · rfl
    · exact obeys_plain trivial (fun _ => rfl) fun _ => rfl
  | ok fd =>
    refine (tidy_createDestinationAndCopy _ _ _).obeys hw fun result => ?_
    refine obeys_plain trivial (fun _ => rfl) fun (r : Option Errno) => ?_
    cases r with
    | some e => exact obeys_plain trivial (fun _ => rfl) fun _ => rfl
    | none => rfl

/-- The reference that is taken is dropped. -/
theorem tidy_copyUsingSourceInfo (rounds : Nat) (src dest : Path) :
    Tidy [.mutex] (copyUsingSourceInfo rounds src dest) := by
  intro w hw
  have hnotable : .table ∉ w.locks := by simp [hw]
  rw [copyUsingSourceInfo]
  refine obeys_call hnotable fun _ => ?_
  refine (tidy_copyRegularFile _ _ _).obeys (w := w.refer) hw fun result => ?_
  exact obeys_call ⟨hnotable, Nat.succ_pos _⟩ fun _ => rfl

/-! ## Copying a directory -/

theorem tidy_todo (ho : ∀ w : Owned, .todo ∈ w.locks → o.Proper w)
    (hnext : ∀ w r, Owned.after w ⟨o, r⟩ = w) {f : o.Answer → BackupM β} (hl : .todo ∉ held)
    (hf : ∀ r, Tidy held (f r)) :
    Tidy held (lock .todo >>= fun _ => (call o : BackupM o.Answer) >>= fun r =>
      unlock .todo >>= fun _ => f r) := by
  intro w hw
  refine obeys_lock (by simp [hw, hl]) (obeys_plain (ho _ List.mem_cons_self) (hnext _) fun r => ?_)
  exact obeys_unlock (hf r w hw)

theorem addEntries_obeys (dir : Option Nat) (file : Path) (rounds : Nat)
    (htodo : .todo ∈ w.locks) (hdir : dir ∈ w.dirs) :
    Obeys owned (addEntries dir file rounds) w fun _ w' => w' = w := by
  induction rounds with
  | zero => trivial
  | succ rounds ih =>
    rw [addEntries]
    refine obeys_plain hdir (fun _ => rfl) fun (entry : Option Path) => ?_
    cases entry with
    | none => rfl
    | some name =>
      refine obeys_plain trivial (fun _ => rfl) fun (enabled : Bool) => ?_
      split
      · split
        · exact ih
        · exact obeys_plain htodo (fun _ => rfl) fun _ => ih
      · rfl

theorem mem_opened {dir : Option Nat} : dir ∈ (w.opened dir).dirs := List.mem_cons_self

theorem after_closedir (dir : Option Nat) (r : Option Errno) :
    (w.opened dir).after ⟨.closedir dir, r⟩ = w := by
  have hdirs : (w.opened dir).dirs.erase dir = w.dirs := List.erase_cons_head _ _
  change { w.opened dir with dirs := (w.opened dir).dirs.erase dir } = w
  rw [hdirs]
  rfl

/-- The last operation on a directory handle. -/
theorem obeys_closedir {dir : Option Nat} {f : Option Errno → BackupM β}
    (hf : ∀ r, Obeys owned (f r) w Q) : Obeys owned (closedir dir >>= f) (w.opened dir) Q := by
  refine obeys_call mem_opened fun r => ?_
  have hback : owned.next (.closedir dir) (w.opened dir) r = w := after_closedir dir r
  rw [hback]
  exact hf r

theorem addDirEntriesToTodo_obeys (rounds : Nat) (dir : Option Nat) (file : Path)
    (hw : w.locks = [.mutex]) (hdir : dir ∈ w.dirs) :
    Obeys owned (addDirEntriesToTodo rounds dir file) w fun _ w' => w' = w := by
  rw [addDirEntriesToTodo]
  refine obeys_lock (by simp [hw]) ?_
  have htodo : .todo ∈ (w.hold .todo).locks := List.mem_cons_self
  refine (addEntries_obeys dir file rounds htodo hdir).bind fun error w' hw' => ?_
  rw [hw']
  exact obeys_unlock rfl

/-- The handle is closed on every way out. -/
theorem copyDirectory_obeys (rounds : Nat) (dir : Option Nat) (dest file : Path)
    (hw : w.locks = [.mutex]) :
    Obeys owned (copyDirectory rounds dir dest file) (w.opened dir) fun _ w' => w' = w := by
  have hentries : Obeys owned (copyDirectory.entries rounds dir file) (w.opened dir)
      fun _ w' => w' = w := by
    rw [copyDirectory.entries]
    have hlocks : (w.opened dir).locks = [.mutex] := hw
    refine (addDirEntriesToTodo_obeys rounds dir file hlocks mem_opened).bind
      fun (r : Int) w' hw' => ?_
    rw [hw']
    split
    · exact obeys_closedir fun _ => rfl
    · refine obeys_closedir fun (r : Option Errno) => ?_
      cases r with
      | some e => exact obeys_plain trivial (fun _ => rfl) fun _ => rfl
      | none => rfl
  rw [copyDirectory]
  refine obeys_plain trivial (fun _ => rfl) fun (r : Option Errno) => ?_
  cases r with
  | some e =>
    dsimp only
    split
    · exact hentries
    · rw [copyDirectory.failed]
      refine obeys_plain trivial (fun _ => rfl) fun _ => ?_
      exact obeys_closedir fun _ => rfl
  | none => exact hentries

theorem tidy_copyFullPath (rounds : Nat) (source dest file : Path) :
    Tidy [.mutex] (copyFullPath rounds source dest file) := by
  rw [copyFullPath]
  refine tidy_plain (fun _ _ => trivial) (fun _ _ => rfl) fun (excluded : Bool) => ?_
  split
  · exact tidy_pure _
  · refine tidy_plain (fun _ _ => trivial) (fun _ _ => rfl) fun (kind : Except Errno FileKind) => ?_
    cases kind with
    | error e =>
      dsimp only
      split
      · exact tidy_pure _
      · exact tidy_reportError _ _ _
    | ok kind =>
      cases kind with
      | regular => exact tidy_copyUsingSourceInfo _ _ _
      | other => exact tidy_pure _
      | directory =>
        intro w hw
        refine obeys_call trivial fun (r : Except Errno Nat) => ?_
        cases r with
        | error e =>
          have hnext : owned.next (.opendir source) w (.error e) =
              if e = .enoent then w.opened none else w := rfl
          rw [hnext]
          dsimp only
          by_cases he : e = .enoent
          · rw [if_pos he, if_pos he]
            exact copyDirectory_obeys rounds none dest file hw
          · rw [if_neg he, if_neg he]
            exact obeys_plain trivial (fun _ => rfl) fun _ => rfl
        | ok dir => exact copyDirectory_obeys rounds (some dir) dest file hw

theorem tidy_copyStrippedFile (rounds : Nat) (source dest file : Path) :
    Tidy [.mutex] (copyStrippedFile rounds source dest file) := by
  rw [copyStrippedFile]
  split
  · exact tidy_copyFullPath _ _ _ _
  · exact tidy_copyFullPath _ _ _ _

/-! ## The backup -/

theorem tidy_copyFiles (rounds : Nat) (source dest : Path) (n n_known : Nat) :
    Tidy [.mutex] (copyFiles rounds source dest n n_known) := by
  induction n generalizing n_known with
  | zero => exact tidy_fail _
  | succ n ih =>
    rw [copyFiles]
    split
    · exact tidy_pure _
    · refine tidy_plain (fun _ _ => trivial) (fun _ _ => rfl) fun (enabled : Bool) => ?_
      split
      · refine tidy_todo (o := .todoFront) (fun _ h => h) (fun _ _ => rfl) (by decide)
          fun (fname : Option Path) => ?_
        cases fname with
        | none => exact tidy_fail _
        | some fname =>
          refine tidy_plain (fun _ _ => trivial) (fun _ _ => rfl) fun (r : Int) => ?_
          split
          · exact tidy_pure _
          · refine tidy_todo (o := .todoPop) (fun _ h => h) (fun _ _ => rfl) (by decide) fun _ => ?_
            refine (tidy_copyStrippedFile _ _ _ _).bind fun (r : Int) => ?_
            split
            · exact tidy_pure _
            · exact tidy_todo (o := .todoSize) (fun _ h => h) (fun _ _ => rfl) (by decide)
                fun n_known => ih n_known
      · exact tidy_pure _

theorem tidy_doCopy (rounds : Nat) (source dest : Path) :
    Tidy [.mutex] (doCopy rounds source dest) := by
  intro w hw
  have htodo : Lock.todo ∈ (w.hold .todo).locks := List.mem_cons_self
  rw [doCopy]
  refine obeys_lock (by simp [hw]) ?_
  refine obeys_plain htodo (fun _ => rfl) fun _ => ?_
  refine obeys_plain htodo (fun _ => rfl) fun (n_known : Nat) => obeys_unlock ?_
  refine (tidy_copyFiles _ _ _ _ _).obeys hw fun r => ?_
  refine obeys_lock (by simp [hw]) ?_
  exact obeys_plain htodo (fun _ => rfl) fun _ => obeys_unlock rfl

theorem tidy_sessionDoCopy (rounds : Nat) (dirs : List (Path × Path)) :
    Tidy [.mutex] (sessionDoCopy rounds dirs) := by
  induction dirs with
  | nil => exact tidy_pure _
  | cons d dirs ih =>
    rw [sessionDoCopy]
    refine (tidy_doCopy _ _ _).bind fun (r : Int) => ?_
    split
    · exact tidy_pure _
    · exact ih

theorem after_endSession (hsession : w.session = false) (r : Unit) :
    (w.withSession.hold .session).after ⟨.endSession, r⟩ = w.hold .session := by
  cases w
  cases hsession
  rfl

theorem disable_obeys {f : Unit → BackupM β} (hw : w.locks = [.mutex])
    (hsession : w.session = false)
    (hf : Obeys owned (f ()) w Q) : Obeys owned (disable >>= f) w.withSession Q := by
  have hfree : .session ∉ w.withSession.locks := by simp [Owned.withSession, hw]
  have hdisable : Obeys owned disable w.withSession fun _ w' => w' = w := by
    rw [disable]
    have hin : (w.withSession.hold .session).InSession := ⟨List.mem_cons_self, rfl⟩
    refine obeys_lock hfree (obeys_call ⟨hin, by simp [Owned.withSession, hw]⟩ fun r => ?_)
    have hended : owned.next .endSession (w.withSession.hold .session) r = w.hold .session :=
      after_endSession hsession r
    rw [hended]
    exact obeys_unlock (f := pure) rfl
  refine hdisable.bind fun _ w' hw' => ?_
  rw [hw']
  exact hf

/-- The session that is made is ended on every way out. -/
theorem backUp_obeys (rounds : Nat) (D : DirectorySet) (hw : w.locks = [.mutex])
    (hsession : w.session = false) :
    Obeys owned (backUp rounds D) w fun _ w' => w' = w := by
  have hmutex : Op.Proper w .validate := by simp [Op.Proper, hw]
  have hcreate : Op.Proper ((w.hold .session).hold .todo) .createSession :=
    ⟨List.mem_cons_of_mem _ List.mem_cons_self, List.mem_cons_self, hsession⟩
  have hin : (w.withSession.hold .session).InSession := ⟨List.mem_cons_self, rfl⟩
  have hprepare : Op.Proper (w.withSession.hold .session) .prepareDirectories :=
    ⟨hin, by simp [Owned.withSession, hw]⟩
  rw [backUp]
  refine obeys_plain hmutex (fun _ => rfl) fun (r : Int) => ?_
  split
  · rfl
  · refine obeys_lock (by simp [hw]) (obeys_lock (by simp [hw]) ?_)
    refine obeys_call hcreate fun _ => ?_
    change Obeys owned _ ((w.withSession.hold .session).hold .todo) _
    refine obeys_unlock (obeys_plain hprepare (fun _ => rfl) fun (r : Int) => ?_)
    split
    · exact obeys_unlock (disable_obeys hw hsession rfl)
    · refine obeys_plain hin (fun _ => rfl) fun _ => obeys_unlock ?_
      refine (tidy_sessionDoCopy _ _).obeys hw fun (r : Int) => ?_
      split
      · exact obeys_plain trivial (fun _ => rfl) fun _ => disable_obeys hw hsession rfl
      · exact disable_obeys hw hsession rfl

/-- Whatever the answers are, `do_backup` does only what is proper, and when it returns it has
nothing. -/
theorem backup_gives_back (rounds : Nat) (D : DirectorySet) :
    Obeys owned (doBackup rounds D) .nothing fun _ w => w = .nothing := by
  rw [doBackup]
  refine obeys_plain trivial (fun _ => rfl) fun (dead : Bool) => ?_
  split
  · exact obeys_plain trivial (fun _ => rfl) fun _ => rfl
  · refine obeys_plain trivial (fun _ => rfl) fun (r : Int) => ?_
    split
    · exact obeys_plain trivial (fun _ => rfl) fun _ => rfl
    · refine obeys_call List.not_mem_nil fun (r : Option Errno) => ?_
      cases r with
      | some e =>
        dsimp only
        split
        · exact obeys_plain trivial (fun _ => rfl) fun _ => rfl
        · exact obeys_plain trivial (fun _ => rfl) fun _ => rfl
      | none =>
        refine (backUp_obeys (w := Owned.nothing.hold .mutex) rounds D rfl rfl).bind
          fun (r : Int) w' hw' => ?_
        rw [hw']
        refine obeys_unlock (obeys_plain trivial (fun _ => rfl) fun (error : Option Int) => ?_)
        cases error with
        | none => rfl
        | some errnum => exact obeys_plain trivial (fun _ => rfl) fun _ => rfl

end

end TokuBackup.BackupThread
