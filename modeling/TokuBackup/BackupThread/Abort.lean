import TokuBackup.BackupThread.Model

/-!
# A poll callback that aborts

The value that the poll callback returns passes through seven functions. A `Watch` follows an
execution of `do_backup`: the first value other than 0 that the callback has returned, whether
anything of the source was taken afterwards, and the locks that are held.

A part of the program that begins before the abort `Respects` it, and a part that begins after
it `Passes` the value on. `poll_abort` puts them together: `do_backup` returns the value, takes
nothing more and holds no lock.
-/

namespace TokuBackup.BackupThread

open Kernel Lib Prog
open DoBackup (Errno FileKind CopyResult isDot)

structure Watch where
  /-- The first value other than 0 of the poll callback. -/
  aborted : Option Int
  /-- Source bytes were read or an entry was taken from the todo list after that. -/
  late : Bool
  /-- A `close` of a source file has failed. -/
  closeFailed : Bool
  held : List Lock
  deriving DecidableEq

/-- Nothing has happened. -/
def Watch.start : Watch := ⟨none, false, false, []⟩

/-- Something is taken from the source. -/
def Watch.take (w : Watch) : Watch := { w with late := w.late || w.aborted.isSome }

def Watch.after (w : Watch) : Event → Watch
  | ⟨.poll, (r : Int)⟩ =>
    { w with aborted := if w.aborted = none ∧ r ≠ 0 then some r else w.aborted }
  | ⟨.lock l, _⟩ => { w with held := l :: w.held }
  | ⟨.unlock l, _⟩ => { w with held := w.held.erase l }
  | ⟨.unlockRange start stop, _⟩ => { w with held := w.held.erase (.range start stop) }
  | ⟨.trylock, none⟩ => { w with held := .mutex :: w.held }
  | ⟨.read _, _⟩ => w.take
  | ⟨.todoFront, _⟩ => w.take
  | ⟨.todoPop, _⟩ => w.take
  | ⟨.close _, some _⟩ => { w with closeFailed := true }
  | _ => w

/-- All answers are those of the environment, but `unlock_range` finds the ranges that are
locked. -/
def watch : Handler Op.Answer Watch where
  reply
    | .unlockRange start stop, w =>
      some (if .range start stop ∈ w.held then none else some Errno.einval)
    | _, _ => none
  allows _ _ _ := true
  next o w r := w.after ⟨o, r⟩

/-! ## Before and after the abort -/

section

variable {α β : Type} {h h' h₁ : List Lock} {val : α → Int} {val' : β → Int} {r : Int}

/-- The callback has not aborted. -/
structure Fresh (h : List Lock) (w : Watch) : Prop where
  late : w.late = false
  aborted : w.aborted = none
  held : w.held = h

/-- The callback has aborted, and `r` is its value unless a `close` has failed. -/
structure Aborted (h : List Lock) (r : Int) (w : Watch) : Prop where
  late : w.late = false
  held : w.held = h
  ne_zero : r ≠ 0
  value : ∃ v, w.aborted = some v ∧ (w.closeFailed = true ∨ r = v)

/-- The end of a part whose result has the value `val`. -/
def Ends (h : List Lock) (val : α → Int) : Except Stop α → Watch → Prop
  | .ok a, w => Fresh h w ∨ Aborted h (val a) w
  | .error _, w => w.late = false ∧ w.aborted = none

/-- The part of the program honours an abort that happens in it; it begins with the locks `h`
and ends with the locks `h'`. -/
def Respects (h h' : List Lock) (val : α → Int) (p : BackupM α) : Prop :=
  ∀ w, Fresh h w → All watch p w fun _ x w' => Ends h' val x w'

/-- The part of the program passes on the value `r` of an abort. -/
def Passes (h h' : List Lock) (r : Int) (val : α → Int) (p : BackupM α) : Prop :=
  ∀ w, Aborted h r w → All watch p w fun _ x w' => ∃ a, x = .ok a ∧ Aborted h' (val a) w'

theorem respects_pure (a : α) : Respects h h val (pure a) := fun _ hw => Or.inl hw

theorem passes_pure {a : α} (ha : r = val a) : Passes h h r val (pure a) := by
  intro w hw
  rw [ha] at hw
  exact ⟨_, rfl, hw⟩

theorem respects_fail (e : Stop) : Respects h h' val (fail e) := fun _ hw => ⟨hw.late, hw.aborted⟩

theorem Respects.bind {p : BackupM α} {f : α → BackupM β} (hp : Respects h h₁ val p)
    (hf : ∀ a, Respects h₁ h' val' (f a))
    (hpass : ∀ a, val a ≠ 0 → Passes h₁ h' (val a) val' (f a)) : Respects h h' val' (p >>= f) := by
  intro w hw
  refine (hp w hw).bind (fun _ e w' hend => hend) fun _ a w' hend => ?_
  rcases hend with hfresh | haborted
  · exact hf a w' hfresh
  · refine (hpass a haborted.ne_zero w' haborted).mono ?_
    rintro _ x w'' ⟨b, rfl, hb⟩
    exact Or.inr hb

theorem Passes.bind {p : BackupM α} {f : α → BackupM β} (hp : Passes h h₁ r val p)
    (hf : ∀ a, val a ≠ 0 → Passes h₁ h' (val a) val' (f a)) : Passes h h' r val' (p >>= f) := by
  intro w hw
  refine (hp w hw).bind ?_ ?_
  · rintro _ e w' ⟨a, ha, -⟩
    cases ha
  · rintro _ a w' ⟨b, hb, haborted⟩
    cases hb
    exact hf a haborted.ne_zero w' haborted

/-! ## Operations -/

/-- The watch does not look at the operation. -/
def Op.light : Op → Bool
  | .poll => false
  | .lock _ => false
  | .unlock _ => false
  | .unlockRange _ _ => false
  | .trylock => false
  | .read _ => false
  | .todoFront => false
  | .todoPop => false
  | .close _ => false
  | _ => true

theorem after_light {o : Op} (ho : o.light = true) (w : Watch) (a : o.Answer) :
    watch.reply o w = none ∧ watch.next o w a = w := by
  cases o <;> first | exact ⟨rfl, rfl⟩ | cases ho

theorem respects_light {o : Op} {f : o.Answer → BackupM β} (ho : o.light = true)
    (hf : ∀ a, Respects h h' val' (f a)) : Respects h h' val' (call o >>= f) := by
  intro w hw
  rw [call_bind, all_step]
  split
  · rename_i a hreply
    rw [(after_light ho w a).1] at hreply
    cases hreply
  · intro a _
    rw [(after_light ho w a).2]
    exact hf a w hw

theorem passes_light {o : Op} {f : o.Answer → BackupM β} (ho : o.light = true)
    (hf : ∀ a, Passes h h' r val' (f a)) : Passes h h' r val' (call o >>= f) := by
  intro w hw
  rw [call_bind, all_step]
  split
  · rename_i a hreply
    rw [(after_light ho w a).1] at hreply
    cases hreply
  · intro a _
    rw [(after_light ho w a).2]
    exact (hf a w hw).mono fun _ x w' hx => hx

theorem respects_lock {l : Lock} {f : Unit → BackupM β} (hf : Respects (l :: h) h' val' (f ())) :
    Respects h h' val' (lock l >>= f) := by
  intro w hw
  refine all_call_answer rfl fun _ _ => hf _ ⟨hw.late, hw.aborted, ?_⟩
  exact congrArg (l :: ·) hw.held

theorem passes_lock {l : Lock} {f : Unit → BackupM β} (hf : Passes (l :: h) h' r val' (f ())) :
    Passes h h' r val' (lock l >>= f) := by
  intro w hw
  refine all_call_answer rfl fun _ _ => hf _ ⟨hw.late, ?_, hw.ne_zero, hw.value⟩
  exact congrArg (l :: ·) hw.held

theorem erase_held {l : Lock} {w : Watch} (hw : w.held = l :: h) : w.held.erase l = h := by
  rw [hw, List.erase_cons_head]

theorem respects_unlock {l : Lock} {f : Unit → BackupM β} (hf : Respects h h' val' (f ())) :
    Respects (l :: h) h' val' (unlock l >>= f) := by
  intro w hw
  exact all_call_answer rfl fun _ _ => hf _ ⟨hw.late, hw.aborted, erase_held hw.held⟩

theorem passes_unlock {l : Lock} {f : Unit → BackupM β} (hf : Passes h h' r val' (f ())) :
    Passes (l :: h) h' r val' (unlock l >>= f) := by
  intro w hw
  exact all_call_answer rfl fun _ _ => hf _ ⟨hw.late, erase_held hw.held, hw.ne_zero, hw.value⟩

theorem reply_unlockRange {start stop : Nat} {w : Watch} (hw : w.held = .range start stop :: h) :
    watch.reply (.unlockRange start stop) w = some (none : Option Errno) := by
  refine congrArg some (if_pos ?_)
  rw [hw]
  exact List.mem_cons_self

theorem respects_unlockRange {start stop : Nat} {f : Option Errno → BackupM β}
    (hf : Respects h h' val' (f none)) :
    Respects (.range start stop :: h) h' val' (unlockRange start stop >>= f) := by
  intro w hw
  refine all_call_reply (reply_unlockRange hw.held) ?_
  exact hf _ ⟨hw.late, hw.aborted, erase_held hw.held⟩

theorem passes_unlockRange {start stop : Nat} {f : Option Errno → BackupM β}
    (hf : Passes h h' r val' (f none)) :
    Passes (.range start stop :: h) h' r val' (unlockRange start stop >>= f) := by
  intro w hw
  refine all_call_reply (reply_unlockRange hw.held) ?_
  exact hf _ ⟨hw.late, erase_held hw.held, hw.ne_zero, hw.value⟩

/-- Before the abort the source may be used. -/
theorem respects_take {o : Op} {f : o.Answer → BackupM β}
    (ho : ∀ w a, watch.reply o w = none ∧ watch.next o w a = w.take)
    (hf : ∀ a, Respects h h' val' (f a)) : Respects h h' val' (call o >>= f) := by
  intro w hw
  rw [call_bind, all_step]
  split
  · rename_i a hreply
    rw [(ho w a).1] at hreply
    cases hreply
  · intro a _
    rw [(ho w a).2]
    refine hf a _ ⟨?_, hw.aborted, hw.held⟩
    rw [Watch.take, hw.late, hw.aborted]
    rfl

theorem respects_poll {f : Int → BackupM β} (hzero : Respects h h' val' (f 0))
    (hpass : ∀ r, r ≠ 0 → Passes h h' r val' (f r)) : Respects h h' val' (poll >>= f) := by
  intro w hw
  refine all_call_answer rfl fun (r : Int) _ => ?_
  by_cases hr : r = 0
  · subst hr
    refine hzero _ ⟨hw.late, ?_, hw.held⟩
    change (if w.aborted = none ∧ (0 : Int) ≠ 0 then some 0 else w.aborted) = none
    rw [if_neg fun hne => hne.2 rfl, hw.aborted]
  · have haborted : Aborted h r (watch.next .poll w r) := by
      refine ⟨hw.late, hw.held, hr, r, ?_, Or.inr rfl⟩
      change (if w.aborted = none ∧ r ≠ 0 then some r else w.aborted) = some r
      rw [if_pos ⟨hw.aborted, hr⟩]
    refine (hpass r hr _ haborted).mono ?_
    rintro _ x w'' ⟨b, rfl, hb⟩
    exact Or.inr hb

theorem respects_trylock {f : Option Errno → BackupM β}
    (hnone : Respects (.mutex :: h) h' val' (f none))
    (hsome : ∀ e, Respects h h' val' (f (some e))) :
    Respects h h' val' (trylock >>= f) := by
  intro w hw
  refine all_call_answer rfl fun (a : Option Errno) _ => ?_
  cases a with
  | none => exact hnone _ ⟨hw.late, hw.aborted, congrArg (Lock.mutex :: ·) hw.held⟩
  | some e => exact hsome e _ hw

theorem respects_close {fd : Nat} {f : Option Errno → BackupM β}
    (hf : ∀ a, Respects h h' val' (f a)) : Respects h h' val' (close fd >>= f) := by
  intro w hw
  refine all_call_answer rfl fun (a : Option Errno) _ => ?_
  cases a with
  | none => exact hf none _ hw
  | some e => exact hf (some e) _ ⟨hw.late, hw.aborted, hw.held⟩

/-- A `close` that fails takes the place of the value. -/
theorem passes_close {fd : Nat} {f : Option Errno → BackupM β} (hnone : Passes h h' r val' (f none))
    (hsome : ∀ e, Passes h h' e.code val' (f (some e))) : Passes h h' r val' (close fd >>= f) := by
  intro w hw
  refine all_call_answer rfl fun (a : Option Errno) _ => ?_
  cases a with
  | none => exact (hnone _ hw).mono fun _ x w' hx => hx
  | some e =>
    obtain ⟨v, hv, -⟩ := hw.value
    have hfailed : Aborted h e.code { w with closeFailed := true } :=
      ⟨hw.late, hw.held, e.code_ne, v, hv, Or.inl rfl⟩
    exact (hsome e _ hfailed).mono fun _ x w' hx => hx

/-! ## Copying a file -/

variable {rounds : Nat}

theorem respects_writeBuffer (n_read n : Nat) (this : Nat) (now : Int) (total : Nat) :
    Respects h h (fun a : RangeResult => a.result) (writeBuffer n_read n this now total) := by
  induction n generalizing this now total with
  | zero => exact respects_fail _
  | succ n ih =>
    unfold writeBuffer
    split
    · refine respects_poll ?_ fun r hr => ?_
      · rw [if_neg (not_not_intro rfl)]
        refine respects_light rfl fun (a : Except Errno Nat) => ?_
        cases a with
        | error e => exact respects_light rfl fun _ => respects_pure _
        | ok n_wrote => exact ih _ _ _
      · rw [if_pos hr]
        exact passes_light rfl fun _ => passes_pure rfl
    · exact respects_pure _

theorem take_read (fd : Nat) (w : Watch) (a : Except Errno Nat) :
    watch.reply (.read fd) w = none ∧ watch.next (.read fd) w a = w.take := ⟨rfl, rfl⟩

theorem respects_copyFileRange (src_info : SourceInfo) (total : Nat) :
    Respects h h (fun a : RangeResult => a.result) (copyFileRange rounds src_info total) := by
  unfold copyFileRange
  refine respects_take (take_read src_info.fd) fun (a : Except Errno Nat) => ?_
  cases a with
  | error e => exact respects_light rfl fun _ => respects_pure _
  | ok n_read =>
    dsimp only
    split
    · exact respects_pure _
    · exact respects_writeBuffer n_read rounds 0 0 total

theorem respects_openAgain (src_info : SourceInfo) (total : Nat) (result : Int) :
    Respects h h (fun a : RangeResult => a.result) (openAgain rounds src_info total result) := by
  unfold openAgain
  refine respects_light rfl fun direct => respects_light rfl fun (a : Except Errno Nat) => ?_
  cases a with
  | error e =>
    dsimp only
    split
    · exact respects_pure _
    · exact respects_light rfl fun _ => respects_pure _
  | ok fd =>
    refine respects_light rfl fun (a : Option Errno) => ?_
    cases a with
    | some e => exact respects_light rfl fun _ => respects_pure _
    | none => exact respects_copyFileRange _ total

theorem respects_openAndLock (src_info : SourceInfo) (total : Nat) :
    Respects h h (fun a : RangeResult => a.result)
      (openAndLockFileThenCopyRange rounds src_info total) := by
  unfold openAndLockFileThenCopyRange
  refine respects_lock (respects_light rfl fun (direct : Bool) => ?_)
  split
  · refine respects_close fun (a : Option Errno) => ?_
    cases a with
    | some e =>
      refine respects_light rfl fun _ => (respects_openAgain src_info total e.code).bind ?_ ?_
      · exact fun result => respects_unlock (respects_pure _)
      · exact fun result _ => passes_unlock (passes_pure rfl)
    | none =>
      refine (respects_openAgain src_info total 0).bind ?_ ?_
      · exact fun result => respects_unlock (respects_pure _)
      · exact fun result _ => passes_unlock (passes_pure rfl)
  · refine (respects_copyFileRange src_info total).bind ?_ ?_
    · exact fun result => respects_unlock (respects_pure _)
    · exact fun result _ => passes_unlock (passes_pure rfl)

theorem respects_possiblySleepOrAbort (n : Nat) : Respects h h id (possiblySleepOrAbort n) := by
  induction n with
  | zero => exact respects_fail _
  | succ n ih =>
    unfold possiblySleepOrAbort
    refine respects_light rfl fun (enabled : Bool) => ?_
    split
    · refine respects_light rfl fun (a : Option Errno) => ?_
      cases a with
      | some e => exact respects_light rfl fun _ => respects_pure _
      | none =>
        refine respects_light rfl fun (pause : Bool) => ?_
        split
        · refine respects_poll ?_ fun r hr => ?_
          · rw [if_neg (not_not_intro rfl)]
            refine respects_light rfl fun _ => respects_light rfl fun (enabled : Bool) => ?_
            split
            · exact ih
            · exact respects_pure _
          · rw [if_pos hr]
            exact passes_light rfl fun _ => passes_pure rfl
        · exact respects_pure _
    · exact respects_pure _

theorem respects_copyRanges (src_info : SourceInfo) (n total : Nat) :
    Respects h h id (copyRanges rounds src_info n total) := by
  induction n generalizing total with
  | zero => exact respects_fail _
  | succ n ih =>
    unfold copyRanges
    refine respects_light rfl fun (enabled : Bool) => ?_
    split
    · refine respects_lock ((respects_openAndLock src_info total).bind ?_ ?_)
      · intro result
        refine respects_unlockRange ?_
        dsimp only
        split
        · exact respects_pure _
        · refine (respects_possiblySleepOrAbort rounds).bind (fun r => ?_) fun r (hr : r ≠ 0) => ?_
          · split
            · exact respects_pure _
            · exact ih _
          · rw [if_pos hr]
            exact passes_pure rfl
      · intro result hresult
        refine passes_unlockRange ?_
        dsimp only
        rw [if_pos (Or.inl hresult)]
        exact passes_pure rfl
    · exact respects_pure _

theorem respects_copyFileData (src_info : SourceInfo) :
    Respects h h id (copyFileData rounds src_info) := by
  unfold copyFileData
  refine respects_light rfl fun (a : Option Errno) => ?_
  cases a with
  | some e => exact respects_light rfl fun _ => respects_pure _
  | none => exact respects_copyRanges src_info rounds 0

theorem respects_onlyWith {flag : Bool} {a : α} {body : BackupM α} (hbody : Respects h h val body) :
    Respects h h val (onlyWith flag a body) := by
  unfold onlyWith
  split
  · exact hbody
  · exact respects_pure a

theorem respects_last {o : Op} {val : o.Answer → Int} (ho : o.light = true) :
    Respects h h val (call o) :=
  respects_light (f := pure) ho fun a => respects_pure a

theorem respects_removeDestination {val : Unit → Int} : Respects h h val removeDestination := by
  unfold removeDestination
  refine respects_light rfl fun (a : Option Errno) => ?_
  cases a with
  | some e => exact respects_last rfl
  | none => exact respects_pure ()

/-- No poll is in the locked part, so that its value does not matter. -/
theorem respects_createDestination (src dest : Path) :
    Respects h h (fun _ => 0) (createDestination src dest) := by
  unfold createDestination
  refine respects_lock (respects_lock (respects_light rfl fun (found : Bool) => ?_))
  have hcreate : Respects (.name :: .table :: h) (.name :: .table :: h) (fun _ => 0)
      (onlyWith found none (tryToCreateDestinationFile dest)) :=
        respects_onlyWith (respects_last rfl)
  refine hcreate.bind (fun result => ?_) fun result hne => absurd rfl hne
  refine respects_light rfl fun (found : Bool) => respects_unlock (respects_unlock ?_)
  exact respects_pure _

theorem respects_createDestinationAndCopy (src_info : SourceInfo) (dest : Path) :
    Respects h h id (createDestinationAndCopy rounds src_info dest) := by
  unfold createDestinationAndCopy
  refine (respects_createDestination src_info.path dest).bind ?_ fun result hne => absurd rfl hne
  rintro ⟨error, source_exists⟩
  cases error with
  | some e => exact respects_pure _
  | none =>
    have hcopy : Respects h h id (onlyWith source_exists 0 (copyFileData rounds src_info)) :=
      respects_onlyWith (respects_copyFileData src_info)
    refine hcopy.bind (fun r => ?_) fun r (hr : r ≠ 0) => ?_
    · split
      · exact respects_pure _
      · have hremove : Respects (.table :: h) (.table :: h) (fun _ => 0) removeDestination :=
          respects_removeDestination
        refine respects_lock (hremove.bind (fun _ => ?_) fun _ hne => absurd rfl hne)
        exact respects_unlock (respects_pure _)
    · rw [if_pos hr]
      exact passes_pure rfl

theorem respects_copyRegularFile (src dest : Path) :
    Respects h h id (copyRegularFile rounds src dest) := by
  unfold copyRegularFile
  refine respects_lock (respects_light rfl fun (direct : Bool) => respects_unlock ?_)
  refine respects_light rfl fun (a : Except Errno Nat) => ?_
  cases a with
  | error e =>
    dsimp only
    split
    · exact respects_pure _
    · exact respects_light rfl fun _ => respects_pure _
  | ok fd =>
    refine (respects_createDestinationAndCopy ⟨src, fd, direct⟩ dest).bind (fun result => ?_)
      fun result hne => ?_
    · refine respects_close fun (a : Option Errno) => ?_
      cases a with
      | some e => exact respects_light rfl fun _ => respects_pure _
      | none => exact respects_pure _
    · refine passes_close (passes_pure rfl) fun e => ?_
      exact passes_light rfl fun _ => passes_pure rfl

theorem respects_copyUsingSourceInfo (src dest : Path) :
    Respects h h id (copyUsingSourceInfo rounds src dest) := by
  unfold copyUsingSourceInfo
  refine respects_light rfl fun _ => (respects_copyRegularFile src dest).bind (fun result => ?_)
    fun result hne => ?_
  · exact respects_light rfl fun _ => respects_pure _
  · exact passes_light rfl fun _ => passes_pure rfl

/-! ## Copying a directory -/

theorem respects_addEntries (dir : Option Nat) (file : Path) (n : Nat) :
    Respects h h (fun _ => 0) (addEntries dir file n) := by
  induction n with
  | zero => exact respects_fail _
  | succ n ih =>
    unfold addEntries
    refine respects_light rfl fun (a : Option Path) => ?_
    cases a with
    | none => exact respects_pure _
    | some name =>
      refine respects_light rfl fun (enabled : Bool) => ?_
      split
      · split
        · exact ih
        · exact respects_light rfl fun _ => ih
      · exact respects_pure _

theorem respects_addDirEntriesToTodo (dir : Option Nat) (file : Path) :
    Respects h h (fun _ => 0) (addDirEntriesToTodo rounds dir file) := by
  unfold addDirEntriesToTodo
  refine respects_lock ((respects_addEntries dir file rounds).bind (fun error => ?_)
    fun error hne => absurd rfl hne)
  exact respects_unlock (respects_pure _)

theorem respects_copyDirectory (dir : Option Nat) (dest file : Path) :
    Respects h h id (copyDirectory rounds dir dest file) := by
  have hentries : Respects h h id (copyDirectory.entries rounds dir file) := by
    unfold copyDirectory.entries
    refine (respects_addDirEntriesToTodo dir file).bind (fun r => ?_) fun r hne => absurd rfl hne
    split
    · exact respects_light rfl fun _ => respects_pure _
    · refine respects_light rfl fun (a : Option Errno) => ?_
      cases a with
      | some e => exact respects_light rfl fun _ => respects_pure _
      | none => exact respects_pure _
  unfold copyDirectory
  refine respects_light rfl fun (a : Option Errno) => ?_
  cases a with
  | none => exact hentries
  | some e =>
    dsimp only
    split
    · exact hentries
    · exact respects_light rfl fun _ => respects_light rfl fun _ => respects_pure _

theorem respects_copyFullPath (source dest file : Path) :
    Respects h h id (copyFullPath rounds source dest file) := by
  unfold copyFullPath
  refine respects_light rfl fun (excluded : Bool) => ?_
  split
  · exact respects_pure _
  · refine respects_light rfl fun (a : Except Errno FileKind) => ?_
    cases a with
    | error e =>
      dsimp only
      split
      · exact respects_pure _
      · exact respects_light rfl fun _ => respects_pure _
    | ok kind =>
      cases kind with
      | regular => exact respects_copyUsingSourceInfo source dest
      | other => exact respects_pure _
      | directory =>
        refine respects_light rfl fun (a : Except Errno Nat) => ?_
        cases a with
        | ok dir => exact respects_copyDirectory (some dir) dest file
        | error e =>
          dsimp only
          split
          · exact respects_copyDirectory none dest file
          · exact respects_light rfl fun _ => respects_pure _

theorem respects_copyStrippedFile (source dest file : Path) :
    Respects h h id (copyStrippedFile rounds source dest file) := by
  unfold copyStrippedFile
  split
  · exact respects_copyFullPath source dest []
  · exact respects_copyFullPath _ _ file

/-! ## The backup -/

theorem take_todoFront (w : Watch) (a : Option Path) :
    watch.reply .todoFront w = none ∧ watch.next .todoFront w a = w.take := ⟨rfl, rfl⟩

theorem take_todoPop (w : Watch) (a : Unit) :
    watch.reply .todoPop w = none ∧ watch.next .todoPop w a = w.take := ⟨rfl, rfl⟩

theorem respects_copyFiles (source dest : Path) (n n_known : Nat) :
    Respects h h id (copyFiles rounds source dest n n_known) := by
  induction n generalizing n_known with
  | zero => exact respects_fail _
  | succ n ih =>
    unfold copyFiles
    split
    · exact respects_pure _
    · refine respects_light rfl fun (enabled : Bool) => ?_
      split
      · refine respects_lock (respects_take take_todoFront fun (fname : Option Path) => ?_)
        refine respects_unlock ?_
        cases fname with
        | none => exact respects_fail _
        | some fname =>
          refine respects_poll ?_ fun r hr => ?_
          · rw [if_neg (not_not_intro rfl)]
            refine respects_lock (respects_take take_todoPop fun _ => respects_unlock ?_)
            refine (respects_copyStrippedFile source dest fname).bind (fun r => ?_)
              fun r (hr : r ≠ 0) => ?_
            · split
              · exact respects_pure _
              · exact respects_lock (respects_light rfl fun n_known => respects_unlock (ih n_known))
            · rw [if_pos hr]
              exact passes_pure rfl
          · rw [if_pos hr]
            exact passes_pure rfl
      · exact respects_pure _

theorem respects_doCopy (source dest : Path) : Respects h h id (doCopy rounds source dest) := by
  unfold doCopy
  refine respects_lock (respects_light rfl fun _ => respects_light rfl fun n_known => ?_)
  refine respects_unlock ((respects_copyFiles source dest rounds n_known).bind (fun r => ?_)
    fun r _ => ?_)
  · exact respects_lock (respects_light rfl fun _ => respects_unlock (respects_pure _))
  · exact passes_lock (passes_light rfl fun _ => passes_unlock (passes_pure rfl))

theorem respects_sessionDoCopy (dirs : List (Path × Path)) :
    Respects h h id (sessionDoCopy rounds dirs) := by
  induction dirs with
  | nil => exact respects_pure _
  | cons d rest ih =>
    obtain ⟨source, dest⟩ := d
    unfold sessionDoCopy
    refine (respects_doCopy source dest).bind (fun r => ?_) fun r (hr : r ≠ 0) => ?_
    · split
      · exact respects_pure _
      · exact ih
    · rw [if_pos hr]
      exact passes_pure rfl

theorem respects_disable : Respects h h (fun _ => 0) disable := by
  unfold disable
  exact respects_lock (respects_light rfl fun _ => respects_unlock (f := pure) (respects_pure ()))

theorem passes_disable : Passes h h r (fun _ => r) disable := by
  unfold disable
  exact passes_lock (passes_light rfl fun _ => passes_unlock (f := pure) (passes_pure rfl))

theorem respects_backUp (D : DirectorySet) : Respects h h id (backUp rounds D) := by
  unfold backUp
  refine respects_light rfl fun (r : Int) => ?_
  split
  · exact respects_pure _
  · refine respects_lock (respects_lock (respects_light rfl fun _ => respects_unlock ?_))
    refine respects_light rfl fun (r : Int) => ?_
    split
    · refine respects_unlock (respects_disable.bind (fun _ => respects_pure _) ?_)
      exact fun _ hne => absurd rfl hne
    · refine respects_light rfl fun _ => respects_unlock ?_
      refine (respects_sessionDoCopy D.dirs).bind (fun r => ?_) fun r (hr : r ≠ 0) => ?_
      · split
        · refine respects_light rfl fun _ => respects_disable.bind (fun _ => respects_pure _) ?_
          exact fun _ hne => absurd rfl hne
        · exact respects_disable.bind (fun _ => respects_pure _) fun _ hne => absurd rfl hne
      · rw [if_pos hr]
        exact passes_light rfl fun _ => passes_disable.bind fun _ _ => passes_pure rfl

theorem respects_doBackup (D : DirectorySet) : Respects [] [] id (doBackup rounds D) := by
  unfold doBackup
  refine respects_light rfl fun (dead : Bool) => ?_
  split
  · exact respects_light rfl fun _ => respects_pure _
  · refine respects_poll ?_ fun r hr => ?_
    · rw [if_neg (not_not_intro rfl)]
      refine respects_trylock ?_ fun e => ?_
      · refine (respects_backUp D).bind (fun r => ?_) fun r (hr : r ≠ 0) => ?_
        · refine respects_unlock (respects_light rfl fun (a : Option Int) => ?_)
          cases a with
          | none => exact respects_pure _
          | some errnum => exact respects_light rfl fun _ => respects_pure _
        · refine passes_unlock (passes_light rfl fun (a : Option Int) => ?_)
          cases a with
          | none => exact passes_pure rfl
          | some errnum =>
            -- the recorded error counts only without one of its own
            refine passes_light rfl fun _ => passes_pure ?_
            exact (if_neg hr).symm
      · dsimp only
        split
        · exact respects_light rfl fun _ => respects_pure _
        · exact respects_light rfl fun _ => respects_pure _
    · rw [if_pos hr]
      exact passes_light rfl fun _ => passes_pure rfl

end

/-! ## The main result -/

/-- When the poll callback aborts and no `close` of a source fails, `do_backup` ends, returns
the value of the callback, has taken nothing from the source or the todo list since, and has
given back all its locks. -/
theorem poll_abort (rounds : Nat) (D : DirectorySet) {es : List Event} {x : Except Stop Int}
    {w : Watch} (hrun : exec watch (doBackup rounds D) .start es = some (x, w)) {v : Int}
    (habort : w.aborted = some v) (hclose : w.closeFailed = false) :
    x = .ok v ∧ w.late = false ∧ w.held = [] := by
  have hend := all_iff.mp (respects_doBackup D .start ⟨rfl, rfl, rfl⟩) es x w hrun
  cases x with
  | error e =>
    have hnone : w.aborted = none := hend.2
    rw [habort] at hnone
    cases hnone
  | ok r =>
    rcases hend with hfresh | ⟨hlate, hheld, -, v', hv', hvalue⟩
    · rw [hfresh.aborted] at habort
      cases habort
    · rw [hv', Option.some.injEq] at habort
      rw [hclose] at hvalue
      refine ⟨?_, hlate, hheld⟩
      rw [← habort]
      exact congrArg Except.ok (hvalue.resolve_left Bool.false_ne_true)

/-- A run in which the callback returns 7 when a buffer of the first file is to be written. -/
def abortedWhileWriting : List Event :=
  [⟨.isDead, false⟩, ⟨.poll, (0 : Int)⟩, ⟨.trylock, none⟩, ⟨.validate, (0 : Int)⟩,
    ⟨.lock .session, ()⟩, ⟨.lock .todo, ()⟩, ⟨.createSession, ()⟩, ⟨.unlock .todo, ()⟩,
    ⟨.prepareDirectories, (0 : Int)⟩, ⟨.enable, ()⟩, ⟨.unlock .session, ()⟩,
    -- the only entry of the todo list is a file
    ⟨.lock .todo, ()⟩, ⟨.todoPush ['.'], ()⟩, ⟨.todoSize, (1 : Nat)⟩, ⟨.unlock .todo, ()⟩,
    ⟨.copyIsEnabled, true⟩, ⟨.lock .todo, ()⟩, ⟨.todoFront, some ['f']⟩, ⟨.unlock .todo, ()⟩,
    ⟨.poll, (0 : Int)⟩, ⟨.lock .todo, ()⟩, ⟨.todoPop, ()⟩, ⟨.unlock .todo, ()⟩,
    ⟨.excludeCopy "/s/f".toList, false⟩, ⟨.stat "/s/f".toList, .ok .regular⟩,
    ⟨.getOrCreateLocked "/s/f".toList, ()⟩, ⟨.lock .fd, ()⟩, ⟨.directIo, false⟩,
    ⟨.unlock .fd, ()⟩, ⟨.openSource "/s/f".toList false, .ok 3⟩, ⟨.lock .table, ()⟩,
    ⟨.lock .name, ()⟩, ⟨.lstat "/s/f".toList, true⟩,
    ⟨.tryToCreateDestinationFile "/b/f".toList, none⟩, ⟨.hasDestination, true⟩,
    ⟨.unlock .name, ()⟩, ⟨.unlock .table, ()⟩, ⟨.clock, none⟩, ⟨.copyIsEnabled, true⟩,
    ⟨.lock (.range 0 (1024 * 1024)), ()⟩, ⟨.lock .fd, ()⟩, ⟨.directIo, false⟩, ⟨.read 3, .ok 5⟩,
    ⟨.poll, (7 : Int)⟩, ⟨.reportError 7 "User aborted backup", ()⟩, ⟨.unlock .fd, ()⟩,
    ⟨.close 3, none⟩, ⟨.tryToRemoveLocked, ()⟩, ⟨.lock .todo, ()⟩, ⟨.todoCleanup, ()⟩,
    ⟨.unlock .todo, ()⟩, ⟨.backupError 7 "COPY phase returned an error: %d", ()⟩,
    ⟨.lock .session, ()⟩, ⟨.endSession, ()⟩, ⟨.unlock .session, ()⟩, ⟨.unlock .mutex, ()⟩,
    ⟨.recordedError, none⟩]

theorem poll_abort_whileWriting :
    ∃ x w, exec watch (doBackup 2 ⟨[("/s".toList, "/b".toList)], fun _ => false⟩) .start
        abortedWhileWriting = some (x, w) ∧ w.aborted = some 7 ∧
      x = .ok 7 ∧ w.late = false ∧ w.held = [] :=
  ⟨_, _, rfl, rfl, @poll_abort 2 ⟨[("/s".toList, "/b".toList)], fun _ => false⟩
    abortedWhileWriting _ _ rfl _ rfl rfl⟩

end TokuBackup.BackupThread
