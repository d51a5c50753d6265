import TokuBackup.BackupThread.Model

/-!
# Entries that vanish

A file or directory of the todo list may be removed or renamed before the copier comes to it,
and between any two of its calls. `Harm` follows `copy_full_path`: which failures there were,
whether a null directory handle was used, whether the copying was disabled, and the references
to source files that are held.

`vanishing_skipped_iff` says when an entry that vanishes is skipped as it should be. A
directory that is gone when it is opened is not, since the copier goes on with the null
pointer; nor is a file that is gone when it is opened again in another mode, since the copier
then closes the fd a second time.
-/

namespace TokuBackup.BackupThread.Vanishing

open Kernel Lib Prog BackupThread
open DoBackup (Errno FileKind CopyResult isDot)

/-- What `close` and `read` say of an fd that is not open. -/
def ebadf : Errno := ⟨9, by decide⟩

structure Harm where
  /-- A call has failed otherwise than because a file is gone, or the callback has aborted. -/
  other : Bool
  /-- `opendir` has found no directory, or an fd was used that is not open. -/
  misused : Bool
  nullUsed : Bool
  /-- `disable_copy` has been called. -/
  disabled : Bool
  references : Int
  deriving DecidableEq

def Harm.start : Harm := ⟨false, false, false, false, 0⟩

namespace Harm

variable (w : Harm)

/-- A failure; it does not matter when the error is `allowed`. -/
def fails (allowed e : Errno) : Harm := if e = allowed then w else { w with other := true }

/-- A failure on an fd. -/
def failsOn (e : Errno) : Harm :=
  if e = ebadf then { w with misused := true } else { w with other := true }

def failed (error : Option Errno) : Harm := if error = none then w else { w with other := true }

def uses (dir : Option Nat) : Harm := if dir = none then { w with nullUsed := true } else w

def after : Event → Harm
  | ⟨.poll, (r : Int)⟩ => if r = 0 then w else { w with other := true }
  | ⟨.stat _, .error e⟩ => w.fails .enoent e
  | ⟨.opendir _, .error e⟩ =>
    if e = .enoent then { w with misused := true } else { w with other := true }
  | ⟨.mkdir _, some e⟩ => w.fails .eexist e
  | ⟨.readdir dir, _⟩ => w.uses dir
  | ⟨.closedir dir, (error : Option Errno)⟩ => (w.uses dir).failed error
  | ⟨.openSource _ _, .error e⟩ => w.fails .enoent e
  | ⟨.close _, some e⟩ => w.failsOn e
  | ⟨.read _, .error e⟩ => w.failsOn e
  | ⟨.lseek _ _, (error : Option Errno)⟩ => w.failed error
  | ⟨.tryToCreateDestinationFile _, (error : Option Errno)⟩ => w.failed error
  | ⟨.tryToRemoveDestination, (error : Option Errno)⟩ => w.failed error
  | ⟨.write _, .error _⟩ => { w with other := true }
  | ⟨.clock, (error : Option Errno)⟩ => w.failed error
  | ⟨.unlockRange _ _, (error : Option Errno)⟩ => w.failed error
  | ⟨.backupError _ _, _⟩ => { w with disabled := true }
  | ⟨.fatalError _ _, _⟩ => { w with disabled := true }
  | ⟨.getOrCreateLocked _, _⟩ => { w with references := w.references + 1 }
  | ⟨.tryToRemoveLocked, _⟩ => { w with references := w.references - 1 }
  | _ => w

end Harm

/-- All answers are those of the environment. -/
def harm : Handler Op.Answer Harm where
  reply _ _ := none
  allows _ _ _ := true
  next o w r := w.after ⟨o, r⟩

/-- The entry is skipped: `copy_full_path` returns 0, uses no null handle, holds no reference,
and the copying goes on. -/
structure Skipped (r : Int) (w : Harm) : Prop where
  result : r = 0
  nullUsed : w.nullUsed = false
  references : w.references = 0
  disabled : w.disabled = false

/-! ## What the result tells -/

section

variable {α β : Type} {val : α → Int} {val' : β → Int} {r : Int} {w w' : Harm}

/-- A misuse shows in the result `r`, or else in the flags. -/
def Tells (r : Int) (w : Harm) : Prop :=
  w.other = true ∨ (w.misused = true ↔ w.nullUsed = true ∨ w.disabled = true ∨ r ≠ 0)

/-- A misuse shows in the flags. -/
def Told (w : Harm) : Prop :=
  w.other = true ∨ w.misused = true ∧ (w.nullUsed = true ∨ w.disabled = true)

theorem Told.tells (h : Told w) (r : Int) : Tells r w := by
  rcases h with h | ⟨hmisused, h⟩
  · exact Or.inl h
  · refine Or.inr (iff_of_true hmisused ?_)
    rcases h with h | h
    · exact Or.inl h
    · exact Or.inr (Or.inl h)

/-- With a result other than 0 something was misused. -/
theorem Tells.misused (h : Tells r w) (hr : r ≠ 0) : w.other = true ∨ w.misused = true :=
  h.imp_right fun h => h.mpr (Or.inr (Or.inr hr))

/-- The flags of `w` are set in `w'`, too. -/
structure Grows (w w' : Harm) : Prop where
  other : w.other = true → w'.other = true
  misused : w.misused = true → w'.misused = true
  nullUsed : w.nullUsed = true → w'.nullUsed = true
  disabled : w.disabled = true → w'.disabled = true

theorem Grows.refl (w : Harm) : Grows w w := ⟨id, id, id, id⟩

theorem Grows.trans {w'' : Harm} (h : Grows w w') (h' : Grows w' w'') : Grows w w'' :=
  ⟨h'.other ∘ h.other, h'.misused ∘ h.misused, h'.nullUsed ∘ h.nullUsed, h'.disabled ∘ h.disabled⟩

theorem Grows.told (h : Grows w w') (hw : Told w) : Told w' := by
  rcases hw with hw | ⟨hmisused, hw⟩
  · exact Or.inl (h.other hw)
  · exact Or.inr ⟨h.misused hmisused, hw.imp h.nullUsed h.disabled⟩

theorem grows_other (w : Harm) : Grows w { w with other := true } := ⟨fun _ => rfl, id, id, id⟩

theorem grows_misused (w : Harm) : Grows w { w with misused := true } := ⟨id, fun _ => rfl, id, id⟩

theorem grows_fails (allowed e : Errno) (w : Harm) : Grows w (w.fails allowed e) := by
  unfold Harm.fails
  split
  · exact Grows.refl w
  · exact grows_other w

theorem grows_failsOn (e : Errno) (w : Harm) : Grows w (w.failsOn e) := by
  unfold Harm.failsOn
  split
  · exact grows_misused w
  · exact grows_other w

theorem grows_failed (error : Option Errno) (w : Harm) : Grows w (w.failed error) := by
  unfold Harm.failed
  split
  · exact Grows.refl w
  · exact grows_other w

theorem grows_uses (dir : Option Nat) (w : Harm) : Grows w (w.uses dir) := by
  unfold Harm.uses
  split
  · exact ⟨id, id, fun _ => rfl, id⟩
  · exact Grows.refl w

theorem grows_after (e : Event) (w : Harm) : Grows w (w.after e) := by
  unfold Harm.after
  split
  · split
    · exact Grows.refl w
    · exact grows_other w
  · exact grows_fails _ _ w
  · split
    · exact grows_misused w
    · exact grows_other w
  · exact grows_fails _ _ w
  · exact grows_uses _ w
  · exact (grows_uses _ w).trans (grows_failed _ _)
  · exact grows_fails _ _ w
  · exact grows_failsOn _ w
  · exact grows_failsOn _ w
  · exact grows_failed _ w
  · exact grows_failed _ w
  · exact grows_failed _ w
  · exact grows_other w
  · exact grows_failed _ w
  · exact grows_failed _ w
  · exact ⟨id, id, id, fun _ => rfl⟩
  · exact ⟨id, id, id, fun _ => rfl⟩
  · exact ⟨id, id, id, id⟩
  · exact ⟨id, id, id, id⟩
  · exact Grows.refl w

/-- What has been told stays told. -/
theorem told_stays {p : BackupM α} (hw : Told w) : All harm p w fun _ _ w' => Told w' := by
  induction p generalizing w with
  | done a => exact hw
  | fail e => exact hw
  | step o k ih => exact fun a _ => ih a ((grows_after ⟨o, a⟩ w).told hw)

/-- From a state in which `r` tells of the misuses, the value of the result does. -/
def Keeps (r : Int) (p : BackupM α) (val : α → Int) : Prop :=
  ∀ w, Tells r w → All harm p w fun _ x w' => ∀ a, x = .ok a → Tells (val a) w'

theorem keeps_pure {a : α} (ha : r = val a) : Keeps r (pure a) val := by
  intro w hw b hb
  cases hb
  rw [← ha]
  exact hw

theorem keeps_fail (e : Stop) : Keeps r (fail e) val := fun _ _ _ ha => nomatch ha

theorem Keeps.bind {p : BackupM α} {f : α → BackupM β} (hp : Keeps r p val)
    (hf : ∀ a, Keeps (val a) (f a) val') : Keeps r (p >>= f) val' := by
  intro w hw
  refine (hp w hw).bind (fun _ e w' _ b hb => nomatch hb) fun _ a w' hend => ?_
  exact hf a w' (hend a rfl)

/-- An operation after which `r'` tells what `r` told before. -/
theorem keeps_call {o : Op} {f : o.Answer → BackupM β} (result : o.Answer → Int)
    (hnext : ∀ a w, Tells r w → Tells (result a) (w.after ⟨o, a⟩))
    (hf : ∀ a, Keeps (result a) (f a) val') : Keeps r (call o >>= f) val' :=
  fun w hw a _ => hf a _ (hnext a w hw)

/-- An operation that changes nothing. -/
theorem keeps_light {o : Op} {f : o.Answer → BackupM β} (hnext : ∀ a w, Harm.after w ⟨o, a⟩ = w)
    (hf : ∀ a, Keeps r (f a) val') : Keeps r (call o >>= f) val' :=
  keeps_call (fun _ => r) (fun a w hw => by rw [hnext a w]; exact hw) hf

/-- After `backup_error` the misuse has been told. -/
theorem keeps_backupError {errnum : Int} {text : String} {f : Unit → BackupM β} (hr : r ≠ 0) :
    Keeps r (backupError errnum text >>= f) val' := by
  intro w hw _ _
  have htold : Told { w with disabled := true } :=
    (hw.misused hr).imp_right fun h => ⟨h, Or.inr rfl⟩
  exact (told_stays htold).mono fun _ x w' h a _ => h.tells (val' a)

/-- The use of a null handle tells of its misuse. -/
theorem keeps_readdir_null {f : Option Path → BackupM β} (hr : r ≠ 0) :
    Keeps r (readdir none >>= f) val' := by
  intro w hw _ _
  have htold : Told { w with nullUsed := true } :=
    (hw.misused hr).imp_right fun h => ⟨h, Or.inl rfl⟩
  exact (told_stays htold).mono fun _ x w' h a _ => h.tells (val' a)

/-! ## Failures -/

/-- The result after a call that may fail. -/
def resultOf (r : Int) (error : Option Errno) : Int := error.elim r Errno.code

theorem tells_other (r : Int) (w : Harm) : Tells r { w with other := true } := Or.inl rfl

theorem tells_failed (error : Option Errno) (hw : Tells r w) :
    Tells (resultOf r error) (w.failed error) := by
  cases error with
  | none => exact hw
  | some e => exact tells_other _ w

theorem tells_fails (allowed e : Errno) (hw : Tells r w) :
    Tells (if e = allowed then r else e.code) (w.fails allowed e) := by
  unfold Harm.fails
  split
  · exact hw
  · exact tells_other _ w

theorem tells_failsOn (e : Errno) (w : Harm) : Tells e.code (w.failsOn e) := by
  unfold Harm.failsOn
  split
  · exact Or.inr (iff_of_true rfl (Or.inr (Or.inr e.code_ne)))
  · exact tells_other _ w

/-- The value of what an fd answers. -/
def fdResult {γ : Type} (r : Int) : Except Errno γ → Int
  | .ok _ => r
  | .error e => e.code

/-- The value of what may fail when a file is gone. -/
def goneResult {γ : Type} : Except Errno γ → Int
  | .ok _ => 0
  | .error e => if e = .enoent then 0 else e.code

/-! ## Copying a file -/

variable {rounds : Nat}

theorem keeps_poll {f : Int → BackupM β} (hf : ∀ r, Keeps r (f r) val') :
    Keeps 0 (poll >>= f) val' := by
  refine keeps_call (fun r : Int => r) (fun (r : Int) w hw => ?_) hf
  change Tells r (if r = 0 then w else { w with other := true })
  split
  · rename_i hr
    rw [hr]
    exact hw
  · exact tells_other r w

theorem keeps_writeBuffer (n_read n : Nat) (this : Nat) (now : Int) (total : Nat) :
    Keeps 0 (writeBuffer n_read n this now total) fun a => a.result := by
  induction n generalizing this now total with
  | zero => exact keeps_fail _
  | succ n ih =>
    unfold writeBuffer
    split
    · refine keeps_poll fun r => ?_
      split
      · exact keeps_light (fun _ _ => rfl) fun _ => keeps_pure rfl
      · rename_i hr
        rw [not_not.mp hr]
        refine keeps_call (fdResult 0) (fun (a : Except Errno Nat) w hw => ?_)
          fun (a : Except Errno Nat) => ?_
        · cases a with
          | ok n_wrote => exact hw
          | error e => exact tells_other _ w
        · cases a with
          | ok n_wrote => exact ih _ _ _
          | error e => exact keeps_light (fun _ _ => rfl) fun _ => keeps_pure rfl
    · exact keeps_pure rfl

theorem keeps_copyFileRange (src_info : SourceInfo) (total : Nat) :
    Keeps 0 (copyFileRange rounds src_info total) fun a => a.result := by
  unfold copyFileRange
  refine keeps_call (fdResult 0) (fun (a : Except Errno Nat) w hw => ?_)
    fun (a : Except Errno Nat) => ?_
  · cases a with
    | ok n_read => exact hw
    | error e => exact tells_failsOn e w
  · cases a with
    | error e => exact keeps_light (fun _ _ => rfl) fun _ => keeps_pure rfl
    | ok n_read =>
      dsimp only
      split
      · exact keeps_pure rfl
      · exact keeps_writeBuffer n_read rounds 0 0 total

theorem keeps_openAgain (src_info : SourceInfo) (total : Nat) :
    Keeps 0 (openAgain rounds src_info total 0) fun a => a.result := by
  unfold openAgain
  refine keeps_light (fun _ _ => rfl) fun direct => ?_
  refine keeps_call goneResult (fun (a : Except Errno Nat) w hw => ?_)
    fun (a : Except Errno Nat) => ?_
  · cases a with
    | ok fd => exact hw
    | error e => exact tells_fails .enoent e hw
  · cases a with
    | error e =>
      dsimp only [goneResult]
      split
      · exact keeps_pure rfl
      · exact keeps_backupError e.code_ne
    | ok fd =>
      refine keeps_call (resultOf 0) (fun (a : Option Errno) w hw => tells_failed a hw)
        fun (a : Option Errno) => ?_
      cases a with
      | some e => exact keeps_backupError e.code_ne
      | none => exact keeps_copyFileRange _ total

theorem keeps_openAndLock (src_info : SourceInfo) (total : Nat) :
    Keeps 0 (openAndLockFileThenCopyRange rounds src_info total) fun a => a.result := by
  unfold openAndLockFileThenCopyRange
  refine keeps_light (fun _ _ => rfl) fun _ =>
    keeps_light (fun _ _ => rfl) fun (direct : Bool) => ?_
  split
  · refine keeps_call (resultOf 0) (fun (a : Option Errno) w hw => ?_) fun (a : Option Errno) => ?_
    · cases a with
      | none => exact hw
      | some e => exact tells_failsOn e w
    · cases a with
      | some e => exact keeps_backupError e.code_ne
      | none =>
        refine (keeps_openAgain src_info total).bind fun result => ?_
        exact keeps_light (fun _ _ => rfl) fun _ => keeps_pure rfl
  · refine (keeps_copyFileRange src_info total).bind fun result => ?_
    exact keeps_light (fun _ _ => rfl) fun _ => keeps_pure rfl

theorem keeps_possiblySleepOrAbort (n : Nat) : Keeps 0 (possiblySleepOrAbort n) id := by
  induction n with
  | zero => exact keeps_fail _
  | succ n ih =>
    unfold possiblySleepOrAbort
    refine keeps_light (fun _ _ => rfl) fun (enabled : Bool) => ?_
    split
    · refine keeps_call (resultOf 0) (fun (a : Option Errno) w hw => tells_failed a hw)
        fun (a : Option Errno) => ?_
      cases a with
      | some e => exact keeps_light (fun _ _ => rfl) fun _ => keeps_pure rfl
      | none =>
        refine keeps_light (fun _ _ => rfl) fun (pause : Bool) => ?_
        split
        · refine keeps_poll fun r => ?_
          split
          · exact keeps_light (fun _ _ => rfl) fun _ => keeps_pure rfl
          · rename_i hr
            rw [not_not.mp hr]
            refine keeps_light (fun _ _ => rfl) fun _ => ?_
            refine keeps_light (fun _ _ => rfl) fun (enabled : Bool) => ?_
            split
            · exact ih
            · exact keeps_pure rfl
        · exact keeps_pure rfl
    · exact keeps_pure rfl

theorem keeps_copyRanges (src_info : SourceInfo) (n total : Nat) :
    Keeps 0 (copyRanges rounds src_info n total) id := by
  induction n generalizing total with
  | zero => exact keeps_fail _
  | succ n ih =>
    unfold copyRanges
    refine keeps_light (fun _ _ => rfl) fun (enabled : Bool) => ?_
    split
    · refine keeps_light (fun _ _ => rfl) fun _ => ?_
      refine (keeps_openAndLock src_info total).bind fun result => ?_
      refine keeps_call (resultOf result.result)
        (fun (a : Option Errno) w hw => tells_failed a hw) fun (a : Option Errno) => ?_
      cases a with
      | some e => exact keeps_pure rfl
      | none =>
        dsimp only [resultOf]
        split
        · exact keeps_pure rfl
        · rename_i hresult
          rw [not_or, not_not] at hresult
          change Keeps result.result _ id
          rw [hresult.1]
          refine (keeps_possiblySleepOrAbort rounds).bind fun (r : Int) => ?_
          split
          · exact keeps_pure rfl
          · rename_i hr
            rw [not_not.mp hr]
            exact ih _
    · exact keeps_pure rfl

theorem keeps_copyFileData (src_info : SourceInfo) :
    Keeps 0 (copyFileData rounds src_info) id := by
  unfold copyFileData
  refine keeps_call (resultOf 0) (fun (a : Option Errno) w hw => tells_failed a hw)
    fun (a : Option Errno) => ?_
  cases a with
  | some e => exact keeps_light (fun _ _ => rfl) fun _ => keeps_pure rfl
  | none => exact keeps_copyRanges src_info rounds 0

theorem keeps_removeDestination : Keeps 0 removeDestination fun _ => 0 := by
  unfold removeDestination
  refine keeps_call (resultOf 0) (fun (a : Option Errno) w hw => tells_failed a hw)
    fun (a : Option Errno) => ?_
  cases a with
  | some e => exact keeps_backupError (f := pure) e.code_ne
  | none => exact keeps_pure rfl

theorem keeps_createDestination (src dest : Path) :
    Keeps 0 (createDestination src dest) fun a => resultOf 0 a.1 := by
  unfold createDestination
  refine keeps_light (fun _ _ => rfl) fun _ => keeps_light (fun _ _ => rfl) fun _ => ?_
  refine keeps_light (fun _ _ => rfl) fun (found : Bool) => ?_
  have hcreate : Keeps 0 (onlyWith found none (tryToCreateDestinationFile dest)) (resultOf 0) := by
    unfold onlyWith
    split
    · exact keeps_call (f := pure) (resultOf 0)
        (fun (a : Option Errno) w hw => tells_failed a hw) fun a => keeps_pure rfl
    · exact keeps_pure rfl
  refine hcreate.bind fun error => keeps_light (fun _ _ => rfl) fun (dest : Bool) => ?_
  refine keeps_light (fun _ _ => rfl) fun _ => keeps_light (fun _ _ => rfl) fun _ => ?_
  exact keeps_pure rfl

theorem keeps_createDestinationAndCopy (src_info : SourceInfo) (dest : Path) :
    Keeps 0 (createDestinationAndCopy rounds src_info dest) id := by
  unfold createDestinationAndCopy
  refine (keeps_createDestination src_info.path dest).bind ?_
  rintro ⟨error, source_exists⟩
  cases error with
  | some e => exact keeps_pure rfl
  | none =>
    have hcopy : Keeps 0 (onlyWith source_exists 0 (copyFileData rounds src_info)) id := by
      unfold onlyWith
      split
      · exact keeps_copyFileData src_info
      · exact keeps_pure rfl
    refine hcopy.bind fun (r : Int) => ?_
    split
    · exact keeps_pure rfl
    · rename_i hr
      rw [not_not.mp hr]
      refine keeps_light (fun _ _ => rfl) fun _ => keeps_removeDestination.bind fun _ => ?_
      exact keeps_light (fun _ _ => rfl) fun _ => keeps_pure rfl

theorem keeps_copyRegularFile (src dest : Path) : Keeps 0 (copyRegularFile rounds src dest) id := by
  unfold copyRegularFile
  refine keeps_light (fun _ _ => rfl) fun _ =>
    keeps_light (fun _ _ => rfl) fun (direct : Bool) => ?_
  refine keeps_light (fun _ _ => rfl) fun _ => ?_
  refine keeps_call goneResult (fun (a : Except Errno Nat) w hw => ?_)
    fun (a : Except Errno Nat) => ?_
  · cases a with
    | ok fd => exact hw
    | error e => exact tells_fails .enoent e hw
  · cases a with
    | error e =>
      dsimp only [goneResult]
      split
      · exact keeps_pure rfl
      · exact keeps_backupError e.code_ne
    | ok fd =>
      refine (keeps_createDestinationAndCopy ⟨src, fd, direct⟩ dest).bind fun (result : Int) => ?_
      refine keeps_call (resultOf result) (fun (a : Option Errno) w hw => ?_)
        fun (a : Option Errno) => ?_
      · cases a with
        | none => exact hw
        | some e => exact tells_failsOn e w
      · cases a with
        | some e => exact keeps_backupError e.code_ne
        | none => exact keeps_pure rfl

/-- The references do not count for the misuses. -/
theorem keeps_reference {o : Op} {f : o.Answer → BackupM β} {r : Int}
    (hnext : ∀ a w, ∃ n, Harm.after w ⟨o, a⟩ = { w with references := n })
    (hf : ∀ a, Keeps r (f a) val') : Keeps r (call o >>= f) val' := by
  refine keeps_call (fun _ => r) (fun a w hw => ?_) hf
  obtain ⟨n, hn⟩ := hnext a w
  rw [hn]
  exact hw

theorem keeps_copyUsingSourceInfo (src dest : Path) :
    Keeps 0 (copyUsingSourceInfo rounds src dest) id := by
  unfold copyUsingSourceInfo
  refine keeps_reference (fun _ w => ⟨w.references + 1, rfl⟩) fun _ => ?_
  refine (keeps_copyRegularFile src dest).bind fun result => ?_
  exact keeps_reference (fun _ w => ⟨w.references - 1, rfl⟩) fun _ => keeps_pure rfl

/-! ## Copying a directory -/

/-- With a result other than 0, nothing takes away what it tells. -/
theorem Tells.grows (hw : Tells r w) (hr : r ≠ 0) (h : Grows w w') : Tells r w' := by
  rcases hw.misused hr with hother | hmisused
  · exact Or.inl (h.other hother)
  · exact Or.inr (iff_of_true (h.misused hmisused) (Or.inr (Or.inr hr)))

theorem keeps_addEntries (dir : Nat) (file : Path) (n : Nat) :
    Keeps 0 (addEntries (some dir) file n) id := by
  induction n with
  | zero => exact keeps_fail _
  | succ n ih =>
    unfold addEntries
    refine keeps_light (fun _ _ => rfl) fun (a : Option Path) => ?_
    cases a with
    | none => exact keeps_pure rfl
    | some name =>
      refine keeps_light (fun _ _ => rfl) fun (enabled : Bool) => ?_
      split
      · split
        · exact ih
        · exact keeps_light (fun _ _ => rfl) fun _ => ih
      · exact keeps_pure rfl

theorem keeps_entries (dir : Nat) (file : Path) :
    Keeps 0 (copyDirectory.entries rounds (some dir) file) id := by
  unfold copyDirectory.entries addDirEntriesToTodo
  rw [bind_assoc]
  refine keeps_light (fun _ _ => rfl) fun _ => ?_
  rw [bind_assoc]
  refine (keeps_addEntries dir file rounds).bind fun (error : Int) => ?_
  refine keeps_light (fun _ _ => rfl) fun _ => ?_
  change Keeps error (if error ≠ 0 then _ else _) id
  split
  · rename_i herror
    refine keeps_call (fun _ => error) (fun a w hw => ?_) fun _ => keeps_pure rfl
    exact hw.grows herror (grows_after _ w)
  · rename_i herror
    rw [not_not.mp herror]
    refine keeps_call (resultOf 0) (fun (a : Option Errno) w hw => tells_failed a hw)
      fun (a : Option Errno) => ?_
    cases a with
    | some e => exact keeps_backupError e.code_ne
    | none => exact keeps_pure rfl

/-- A directory that was not opened is read through the null pointer. -/
theorem keeps_entries_null (file : Path) (hr : r ≠ 0) :
    Keeps r (copyDirectory.entries rounds none file) id := by
  unfold copyDirectory.entries addDirEntriesToTodo
  rw [bind_assoc]
  refine keeps_light (fun _ _ => rfl) fun _ => ?_
  cases rounds with
  | zero => exact keeps_fail _
  | succ n =>
    unfold addEntries
    rw [bind_assoc, bind_assoc]
    exact keeps_readdir_null hr

/-- The value after `mkdir`, which may find the directory. -/
def mkdirResult (r : Int) : Option Errno → Int
  | none => r
  | some e => if e = .eexist then r else e.code

theorem keeps_copyDirectory {dir : Option Nat} {dest file : Path}
    (hentries : Keeps r (copyDirectory.entries rounds dir file) id) :
    Keeps r (copyDirectory rounds dir dest file) id := by
  unfold copyDirectory
  refine keeps_call (mkdirResult r) (fun (a : Option Errno) w hw => ?_) fun (a : Option Errno) => ?_
  · cases a with
    | none => exact hw
    | some e => exact tells_fails .eexist e hw
  · cases a with
    | none => exact hentries
    | some e =>
      dsimp only [mkdirResult]
      split
      · exact hentries
      · unfold copyDirectory.failed
        refine keeps_light (fun _ _ => rfl) fun _ => ?_
        refine keeps_call (fun _ => e.code) (fun a w hw => ?_) fun _ => keeps_pure rfl
        exact hw.grows e.code_ne (grows_after _ w)

theorem keeps_copyFullPath (source dest file : Path) :
    Keeps 0 (copyFullPath rounds source dest file) id := by
  unfold copyFullPath
  refine keeps_light (fun _ _ => rfl) fun (excluded : Bool) => ?_
  split
  · exact keeps_pure rfl
  · refine keeps_call goneResult (fun (a : Except Errno FileKind) w hw => ?_)
      fun (a : Except Errno FileKind) => ?_
    · cases a with
      | ok kind => exact hw
      | error e => exact tells_fails .enoent e hw
    · cases a with
      | error e =>
        dsimp only [goneResult]
        split
        · exact keeps_pure rfl
        · exact keeps_light (fun _ _ => rfl) fun _ => keeps_pure rfl
      | ok kind =>
        cases kind with
        | regular => exact keeps_copyUsingSourceInfo source dest
        | other => exact keeps_pure rfl
        | directory =>
          refine keeps_call (fdResult 0) (fun (a : Except Errno Nat) w hw => ?_)
            fun (a : Except Errno Nat) => ?_
          · cases a with
            | ok dir => exact hw
            | error e =>
              change Tells e.code (if e = .enoent then { w with misused := true }
                else { w with other := true })
              split
              · exact Or.inr (iff_of_true rfl (Or.inr (Or.inr e.code_ne)))
              · exact tells_other _ w
          · cases a with
            | ok dir => exact keeps_copyDirectory (keeps_entries dir file)
            | error e =>
              dsimp only [fdResult]
              split
              · exact keeps_copyDirectory (keeps_entries_null file e.code_ne)
              · exact keeps_backupError e.code_ne

end

/-! ## The references -/

section

variable {α β : Type} {rounds : Nat}

/-- An operation that leaves the references alone. -/
def plain : Op → Bool
  | .getOrCreateLocked _ => false
  | .tryToRemoveLocked => false
  | _ => true

abbrev Plain (p : BackupM α) : Prop := Performs (fun o => plain o = true) p

theorem references_uses (dir : Option Nat) (w : Harm) : (w.uses dir).references = w.references := by
  unfold Harm.uses
  split <;> rfl

theorem references_failed (error : Option Errno) (w : Harm) :
    (w.failed error).references = w.references := by
  unfold Harm.failed
  split <;> rfl

theorem references_after {o : Op} (ho : plain o = true) (a : o.Answer) (w : Harm) :
    (w.after ⟨o, a⟩).references = w.references := by
  unfold Harm.after Harm.fails Harm.failsOn
  split <;> first
    | rfl
    | exact references_uses _ w
    | exact references_failed _ w
    | exact (references_failed _ _).trans (references_uses _ w)
    | (split <;> rfl)
    | (rename_i heq; cases heq; cases ho)

theorem Plain.references {p : BackupM α} (hp : Plain p) (w : Harm) :
    All harm p w fun _ _ w' => w'.references = w.references := by
  induction p generalizing w with
  | done a => rfl
  | fail e => rfl
  | step o k ih =>
    intro a _
    rw [← references_after hp.1 a w]
    exact ih a (hp.2 a) _

theorem plain_writeBuffer (n_read n : Nat) (this : Nat) (now : Int) (total : Nat) :
    Plain (writeBuffer n_read n this now total) := by
  induction n generalizing this now total with
  | zero => exact performs_fail _
  | succ n ih =>
    unfold writeBuffer
    split
    · refine performs_call rfl fun (r : Int) => ?_
      split
      · exact performs_call rfl fun _ => performs_pure _
      · refine performs_call rfl fun (a : Except Errno Nat) => ?_
        cases a with
        | error e => exact performs_call rfl fun _ => performs_pure _
        | ok n_wrote => exact ih _ _ _
    · exact performs_pure _

theorem plain_copyFileRange (src_info : SourceInfo) (total : Nat) :
    Plain (copyFileRange rounds src_info total) := by
  unfold copyFileRange
  refine performs_call rfl fun (a : Except Errno Nat) => ?_
  cases a with
  | error e => exact performs_call rfl fun _ => performs_pure _
  | ok n_read =>
    dsimp only
    split
    · exact performs_pure _
    · exact plain_writeBuffer _ _ _ _ _

theorem plain_openAgain (src_info : SourceInfo) (total : Nat) (result : Int) :
    Plain (openAgain rounds src_info total result) := by
  unfold openAgain
  refine performs_call rfl fun _ => performs_call rfl fun (a : Except Errno Nat) => ?_
  cases a with
  | error e =>
    dsimp only
    split
    · exact performs_pure _
    · exact performs_call rfl fun _ => performs_pure _
  | ok fd =>
    refine performs_call rfl fun (a : Option Errno) => ?_
    cases a with
    | some e => exact performs_call rfl fun _ => performs_pure _
    | none => exact plain_copyFileRange _ total

theorem plain_openAndLock (src_info : SourceInfo) (total : Nat) :
    Plain (openAndLockFileThenCopyRange rounds src_info total) := by
  have hlast : ∀ result : RangeResult, Plain (unlock .fd >>= fun _ => pure result) :=
    fun result => performs_call rfl fun _ => performs_pure _
  unfold openAndLockFileThenCopyRange
  refine performs_call rfl fun _ => performs_call rfl fun (direct : Bool) => ?_
  split
  · refine performs_call rfl fun (a : Option Errno) => ?_
    cases a with
    | some e => exact performs_call rfl fun _ => (plain_openAgain _ _ _).bind hlast
    | none => exact (plain_openAgain _ _ _).bind hlast
  · exact (plain_copyFileRange _ _).bind hlast

theorem plain_possiblySleepOrAbort (n : Nat) : Plain (possiblySleepOrAbort n) := by
  induction n with
  | zero => exact performs_fail _
  | succ n ih =>
    unfold possiblySleepOrAbort
    refine performs_call rfl fun (enabled : Bool) => ?_
    split
    · refine performs_call rfl fun (a : Option Errno) => ?_
      cases a with
      | some e => exact performs_call rfl fun _ => performs_pure _
      | none =>
        refine performs_call rfl fun (pause : Bool) => ?_
        split
        · refine performs_call rfl fun (r : Int) => ?_
          split
          · exact performs_call rfl fun _ => performs_pure _
          · refine performs_call rfl fun _ => performs_call rfl fun (enabled : Bool) => ?_
            split
            · exact ih
            · exact performs_pure _
        · exact performs_pure _
    · exact performs_pure _

theorem plain_copyRanges (src_info : SourceInfo) (n total : Nat) :
    Plain (copyRanges rounds src_info n total) := by
  induction n generalizing total with
  | zero => exact performs_fail _
  | succ n ih =>
    unfold copyRanges
    refine performs_call rfl fun (enabled : Bool) => ?_
    split
    · refine performs_call rfl fun _ => (plain_openAndLock src_info total).bind fun result => ?_
      refine performs_call rfl fun (a : Option Errno) => ?_
      cases a with
      | some e => exact performs_pure _
      | none =>
        dsimp only
        split
        · exact performs_pure _
        · refine (plain_possiblySleepOrAbort rounds).bind fun r => ?_
          split
          · exact performs_pure _
          · exact ih _
    · exact performs_pure _

theorem plain_removeDestination : Plain removeDestination := by
  unfold removeDestination
  refine performs_call rfl fun (a : Option Errno) => ?_
  cases a with
  | some e => exact performs_last rfl
  | none => exact performs_pure ()

theorem plain_onlyWith {flag : Bool} {a : α} {body : BackupM α} (h : Plain body) :
    Plain (onlyWith flag a body) := by
  unfold onlyWith
  split
  · exact h
  · exact performs_pure a

theorem plain_copyFileData (src_info : SourceInfo) : Plain (copyFileData rounds src_info) := by
  unfold copyFileData
  refine performs_call rfl fun (a : Option Errno) => ?_
  cases a with
  | some e => exact performs_call rfl fun _ => performs_pure _
  | none => exact plain_copyRanges src_info rounds 0

theorem plain_createDestination (src dest : Path) : Plain (createDestination src dest) := by
  unfold createDestination
  refine performs_call rfl fun _ => performs_call rfl fun _ => performs_call rfl fun found => ?_
  refine (plain_onlyWith (performs_last rfl)).bind fun error => ?_
  refine performs_call rfl fun _ => performs_call rfl fun _ => performs_call rfl fun _ => ?_
  exact performs_pure _

theorem plain_createDestinationAndCopy (src_info : SourceInfo) (dest : Path) :
    Plain (createDestinationAndCopy rounds src_info dest) := by
  unfold createDestinationAndCopy
  refine (plain_createDestination src_info.path dest).bind ?_
  rintro ⟨error, source_exists⟩
  cases error with
  | some e => exact performs_pure _
  | none =>
    refine (plain_onlyWith (plain_copyFileData src_info)).bind fun r => ?_
    split
    · exact performs_pure _
    · refine performs_call rfl fun _ => plain_removeDestination.bind fun _ => ?_
      exact performs_call rfl fun _ => performs_pure _

theorem plain_copyRegularFile (src dest : Path) : Plain (copyRegularFile rounds src dest) := by
  unfold copyRegularFile
  refine performs_call rfl fun _ => performs_call rfl fun direct => performs_call rfl fun _ => ?_
  refine performs_call rfl fun (a : Except Errno Nat) => ?_
  cases a with
  | error e =>
    dsimp only
    split
    · exact performs_pure _
    · exact performs_call rfl fun _ => performs_pure _
  | ok fd =>
    refine (plain_createDestinationAndCopy ⟨src, fd, direct⟩ dest).bind fun result => ?_
    refine performs_call rfl fun (a : Option Errno) => ?_
    cases a with
    | some e => exact performs_call rfl fun _ => performs_pure _
    | none => exact performs_pure _

theorem plain_addEntries (dir : Option Nat) (file : Path) (n : Nat) :
    Plain (addEntries dir file n) := by
  induction n with
  | zero => exact performs_fail _
  | succ n ih =>
    unfold addEntries
    refine performs_call rfl fun (a : Option Path) => ?_
    cases a with
    | none => exact performs_pure _
    | some name =>
      refine performs_call rfl fun (enabled : Bool) => ?_
      split
      · split
        · exact ih
        · exact performs_call rfl fun _ => ih
      · exact performs_pure _

theorem plain_copyDirectory (dir : Option Nat) (dest file : Path) :
    Plain (copyDirectory rounds dir dest file) := by
  have hentries : Plain (copyDirectory.entries rounds dir file) := by
    unfold copyDirectory.entries addDirEntriesToTodo
    rw [bind_assoc]
    refine performs_call rfl fun _ => ?_
    rw [bind_assoc]
    refine (plain_addEntries dir file rounds).bind fun (error : Int) =>
      performs_call rfl fun _ => ?_
    change Plain (if error ≠ 0 then _ else _)
    split
    · exact performs_call rfl fun _ => performs_pure _
    · refine performs_call rfl fun (a : Option Errno) => ?_
      cases a with
      | some e => exact performs_call rfl fun _ => performs_pure _
      | none => exact performs_pure _
  unfold copyDirectory
  refine performs_call rfl fun (a : Option Errno) => ?_
  cases a with
  | none => exact hentries
  | some e =>
    dsimp only
    split
    · exact hentries
    · exact performs_call rfl fun _ => performs_call rfl fun _ => performs_pure _

/-- The reference that is taken for a file is given back. -/
theorem references_copyUsingSourceInfo (src dest : Path) (w : Harm) :
    All harm (copyUsingSourceInfo rounds src dest) w fun _ x w' =>
      ∀ r, x = .ok r → w'.references = w.references := by
  unfold copyUsingSourceInfo
  refine all_call_answer rfl fun _ _ => ?_
  refine ((plain_copyRegularFile src dest).references _).bind (fun _ e w' _ r hr => nomatch hr) ?_
  intro _ result w' hw'
  refine all_call_answer rfl fun _ _ => ?_
  intro r _
  change w'.references - 1 = w.references
  rw [hw']
  exact Int.add_sub_cancel _ _

theorem references_copyFullPath (source dest file : Path) (w : Harm) :
    All harm (copyFullPath rounds source dest file) w fun _ x w' =>
      ∀ r, x = .ok r → w'.references = w.references := by
  have hplain : ∀ {p : BackupM Int} {w' : Harm}, Plain p → w'.references = w.references →
      All harm p w' fun _ x w'' => ∀ r, x = .ok r → w''.references = w.references :=
    fun hp hw' => (hp.references _).mono fun _ x w'' hx r _ => hx.trans hw'
  unfold copyFullPath
  refine all_call_answer rfl fun (excluded : Bool) _ => ?_
  change All harm (if excluded = true then _ else _) w _
  split
  · exact hplain (performs_pure _) rfl
  · refine all_call_answer rfl fun (a : Except Errno FileKind) _ => ?_
    have hafter : (w.after ⟨.stat source, a⟩).references = w.references :=
      references_after (o := Op.stat source) rfl a w
    cases a with
    | error e =>
      change All harm (if e = .enoent then _ else _) _ _
      split
      · exact hplain (performs_pure _) hafter
      · exact hplain (performs_call rfl fun _ => performs_pure _) hafter
    | ok kind =>
      cases kind with
      | regular => exact references_copyUsingSourceInfo source dest w
      | other => exact hplain (performs_pure _) hafter
      | directory =>
        refine hplain (performs_call rfl fun (a : Except Errno Nat) => ?_) hafter
        cases a with
        | ok dir => exact plain_copyDirectory (some dir) dest file
        | error e =>
          dsimp only
          split
          · exact plain_copyDirectory none dest file
          · exact performs_call rfl fun _ => performs_pure _

end

/-! ## The main result -/

/-- When nothing fails but for the reason that a file is gone, `copy_full_path` skips what is
gone exactly when no directory is gone at its `opendir`, and no fd is used that is not open. -/
theorem vanishing_skipped_iff (rounds : Nat) (source dest file : Path) {es : List Event} {r : Int}
    {w : Harm} (hrun : exec harm (copyFullPath rounds source dest file) .start es = some (.ok r, w))
    (hother : w.other = false) : Skipped r w ↔ w.misused = false := by
  have hstart : Tells 0 Harm.start := Or.inr (by decide)
  have htells := all_iff.mp (keeps_copyFullPath source dest file .start hstart) es _ w hrun r rfl
  have hreferences :=
    all_iff.mp (references_copyFullPath source dest file .start) es _ w hrun r rfl
  rw [Tells, hother] at htells
  have htells := htells.resolve_left Bool.false_ne_true
  constructor
  · intro h
    rw [h.result, h.nullUsed, h.disabled] at htells
    simpa using htells
  · intro h
    rw [h] at htells
    simp only [Bool.false_eq_true, false_iff, not_or, Bool.not_eq_true, not_not] at htells
    exact ⟨htells.2.2, htells.1, hreferences, htells.2.1⟩

/-- A run in which a file is gone when it is opened. -/
def goneFile : List Event :=
  [⟨.excludeCopy "/s/f".toList, false⟩, ⟨.stat "/s/f".toList, .ok .regular⟩,
    ⟨.getOrCreateLocked "/s/f".toList, ()⟩, ⟨.lock .fd, ()⟩, ⟨.directIo, false⟩,
    ⟨.unlock .fd, ()⟩, ⟨.openSource "/s/f".toList false, .error .enoent⟩, ⟨.tryToRemoveLocked, ()⟩]

theorem vanishing_skipped_goneFile : ∃ r w,
    exec harm (copyFullPath 2 "/s/f".toList "/b/f".toList "/f".toList) .start goneFile =
      some (.ok r, w) ∧ w.other = false ∧ Skipped r w :=
  ⟨_, _, rfl, rfl, (@vanishing_skipped_iff 2 "/s/f".toList "/b/f".toList "/f".toList
    goneFile _ _ rfl rfl).mpr rfl⟩

/-- A run in which a directory is gone when it is opened. -/
def goneDirectory : List Event :=
  [⟨.excludeCopy "/s/d".toList, false⟩, ⟨.stat "/s/d".toList, .ok .directory⟩,
    ⟨.opendir "/s/d".toList, .error .enoent⟩, ⟨.mkdir "/b/d".toList, none⟩, ⟨.lock .todo, ()⟩,
    ⟨.readdir none, none⟩, ⟨.unlock .todo, ()⟩, ⟨.closedir none, none⟩]

/-- The copier reads the directory that is gone. -/
theorem not_vanishing_skipped_goneDirectory :
    ¬ ∀ (rounds : Nat) (source dest file : Path) (es : List Event) (r : Int) (w : Harm),
      exec harm (copyFullPath rounds source dest file) .start es = some (.ok r, w) →
        w.other = false → Skipped r w := by
  intro h
  have h := h 2 "/s/d".toList "/b/d".toList "/d".toList goneDirectory _ _ rfl rfl
  exact absurd h.nullUsed (by decide)

end TokuBackup.BackupThread.Vanishing
