import TokuBackup.DoBackup.Model

/-!
# Failures that come back

Each function of the backup thread returns a nonzero code exactly when one of its calls has
failed in a way that is carried, reports the failures that are lost, and reports nothing and
leaves the copy enabled when no call fails.
-/

namespace TokuBackup.DoBackup

open Kernel Lib Script

/-- Nothing has been reported and the copy has not been disabled; if `strict` holds no copier
has come to its end either. -/
structure Quiet (strict : Prop) (m m' : Manager) : Prop where
  reports : m'.reports = m.reports
  copyDisabled : m'.copyDisabled = m.copyDisabled
  copyEnabled : m.copyEnabled = true → m'.copyEnabled = true
  emptied : strict → m'.emptied = m.emptied

theorem Quiet.trans {strict : Prop} {m m' m'' : Manager} (h : Quiet strict m m')
    (h' : Quiet strict m' m'') : Quiet strict m m'' where
  reports := h'.reports.trans h.reports
  copyDisabled := h'.copyDisabled.trans h.copyDisabled
  copyEnabled hm := h'.copyEnabled (h.copyEnabled hm)
  emptied hs := (h'.emptied hs).trans (h.emptied hs)

/-- The failures of a backup of `count` directories; the reports tell of them. -/
def ledger (count : Nat) (strict : Prop) : Ledger Call.Answer Manager where
  carried := Event.Carried count
  lost := Event.Lost count
  told m := m.reports ≠ []
  quiet := Quiet strict
  quiet_refl _ := ⟨rfl, rfl, id, fun _ => rfl⟩
  quiet_trans _ _ _ h h' := h.trans h'

/-- The function returns a nonzero code exactly for carried failures. -/
abbrev Returns (count : Nat) (strict : Prop) (m : BackupM Int) : Prop :=
  (ledger count strict).Accounts (fun r => r ≠ 0) False False False m

section

variable {count : Nat} {strict : Prop} {α : Type} {fails : α → Prop} {c d q : Prop}
  {f : Unit → BackupM α}

@[simp] theorem ledger_carried : (ledger count strict).carried = Event.Carried count := rfl

@[simp] theorem ledger_lost : (ledger count strict).lost = Event.Lost count := rfl

@[simp] theorem Errno.code_ne_zero (e : Errno) : e.code ≠ 0 := e.code_ne

theorem accounts_reportError {errnum : Int} {text : String} (hwhy : c ∨ d ∨ q)
    (hf : (ledger count strict).Accounts fails c False True (f ())) :
    (ledger count strict).Accounts fails c d q (reportError errnum text >>= f) :=
  accounts_tell hwhy (fun m => by simp [ledger]) hf

theorem accounts_backupError {errnum : Int} {text : String} (hwhy : c ∨ d ∨ q)
    (hf : (ledger count strict).Accounts fails c False True (f ())) :
    (ledger count strict).Accounts fails c d q (backupError errnum text >>= f) :=
  accounts_tell hwhy (fun m => by simp [ledger]) hf

theorem accounts_backupError_last {fails : Unit → Prop} {errnum : Int} {text : String}
    (hwhy : c ∨ d ∨ q) (hfails : fails () ↔ c) :
    (ledger count strict).Accounts fails c d q (backupError errnum text) := by
  rw [← bind_pure (backupError errnum text)]
  exact accounts_backupError hwhy (accounts_pure hfails id)

theorem accounts_fatalError {errnum : Int} {text : String} (hwhy : c ∨ d ∨ q)
    (hf : (ledger count strict).Accounts fails c False True (f ())) :
    (ledger count strict).Accounts fails c d q (fatalError errnum text >>= f) :=
  accounts_tell hwhy (fun m => by simp [ledger]) hf

/-- A change of the todo list. -/
theorem accounts_todo {g : Manager → List (Option Path)}
    (hf : (ledger count strict).Accounts fails c d q (f ())) :
    (ledger count strict).Accounts fails c d q (change (fun m => { m with todo := g m }) >>= f) :=
  accounts_change (fun _ => ⟨rfl, rfl, id, fun _ => rfl⟩) (fun _ h => h) hf

/-! ## The copier -/

theorem accounts_writeBuffer (n_read : Nat) :
    (ledger count strict).Accounts (fun r : CopyResult => r.result ≠ 0) False False False
      (writeBuffer n_read) := by
  refine accounts_loop (fun b => ?_) _
  obtain ⟨n_wrote_this_buf, n_wrote_now⟩ := b
  dsimp only
  split
  · refine accounts_call fun (r : Int) => ?_
    split
    · rename_i hr
      exact accounts_reportError (by simp [hr]) (accounts_pure (by simp [hr]) id)
    · rename_i hr
      refine accounts_call fun (w : Except Errno Nat) => ?_
      cases w with
      | error e => exact accounts_reportError (by simp) (accounts_pure (by simp) id)
      | ok n => exact accounts_pure (by simpa using hr) (by simp)
  · exact accounts_pure (by simp) id

theorem accounts_copyFileRange :
    (ledger count strict).Accounts (fun r : CopyResult => r.result ≠ 0) False False False
      copyFileRange := by
  refine accounts_call fun (r : Except Errno Nat) => ?_
  match r with
  | .error e => exact accounts_reportError (by simp) (accounts_pure (by simp) id)
  | .ok 0 => exact accounts_pure (by simp) (by simp)
  | .ok (n + 1) => exact (accounts_writeBuffer (n + 1)).of_clean (by simp) (by simp)

theorem accounts_reopened {again : Except Errno (Option Errno)} {result : Int}
    (hresult : again = .error .enoent → (result ≠ 0 ↔ c)) (hagain : again = .ok none → ¬ c)
    (hother : again ≠ .error .enoent → again ≠ .ok none → c) (hd : ¬ d) :
    (ledger count strict).Accounts (fun r : CopyResult => r.result ≠ 0) c d q
      (openAndLockFileThenCopyRange.reopened again result) := by
  match again with
  | .error e =>
    simp only [openAndLockFileThenCopyRange.reopened]
    split
    · rename_i he
      exact accounts_pure (hresult (by rw [he])) hd
    · rename_i he
      have hc : c := hother (by simpa using he) (by simp)
      exact accounts_backupError (Or.inl hc) (accounts_pure (by simp [hc]) id)
  | .ok (some e) =>
    have hc : c := hother (by simp) (by simp)
    exact accounts_backupError (Or.inl hc) (accounts_pure (by simp [hc]) id)
  | .ok none => exact accounts_copyFileRange.of_clean (hagain rfl) hd

theorem accounts_openAndLockFileThenCopyRange (src : Path) :
    (ledger count strict).Accounts (fun r : CopyResult => r.result ≠ 0) False False False
      (openAndLockFileThenCopyRange src) := by
  refine accounts_call fun (differ : Bool) => ?_
  split
  · refine accounts_call fun (r : Option Errno × Except Errno (Option Errno)) => ?_
    obtain ⟨close, again⟩ := r
    cases close with
    | some e =>
      -- the failure is carried, or lost when the source is opened again
      refine accounts_backupError ?_ (accounts_reopened ?_ ?_ ?_ id)
      · rcases again with e | _ | e <;> simp
      · intro h
        simp [h]
      · intro h
        simp [h]
      · rcases again with e | _ | e <;> simp
    | none =>
      refine accounts_reopened ?_ ?_ ?_ ?_
      · intro h
        simp [h]
      · intro h
        simp [h]
      · rcases again with e | _ | e <;> simp
      · rcases again with e | _ | e <;> simp
  · exact accounts_copyFileRange.of_clean (by simp) (by simp)

theorem accounts_possiblySleepOrAbort : Returns count strict possiblySleepOrAbort := by
  refine accounts_loop (fun b => ?_) _
  refine accounts_state fun m => ?_
  split
  · exact accounts_pure (by simp) id
  · refine accounts_call fun (r : Option Errno) => ?_
    cases r with
    | some e => exact accounts_reportError (by simp) (accounts_pure (by simp) id)
    | none =>
      refine accounts_call fun (exceeded : Bool) => ?_
      split
      · refine accounts_call fun (r : Int) => ?_
        split
        · rename_i hr
          exact accounts_reportError (by simp [hr]) (accounts_pure (by simp [hr]) id)
        · rename_i hr
          refine accounts_state fun m => ?_
          split
          · exact accounts_pure (by simpa using hr) (by simp)
          · exact accounts_pure (by simpa using hr) (by simp)
      · exact accounts_pure (by simp) (by simp)

theorem accounts_copyFileData (src : Path) : Returns count strict (copyFileData src) := by
  refine accounts_call fun (r : Option Errno) => ?_
  cases r with
  | some e => exact accounts_reportError (by simp) (accounts_pure (by simp) id)
  | none =>
    refine Ledger.Accounts.of_clean (accounts_loop (fun b => ?_) _) (by simp) (by simp)
    refine accounts_state fun m => ?_
    split
    · exact accounts_pure (by simp) id
    · refine accounts_bind (accounts_openAndLockFileThenCopyRange src) fun result => ?_
      split
      · exact accounts_pure (by simp) id
      · rename_i hr
        rw [not_or, not_not] at hr
        refine accounts_bind accounts_possiblySleepOrAbort fun r => ?_
        split
        · exact accounts_pure (by simp [hr.1]) id
        · rename_i hr'
          exact accounts_pure (by simpa [hr.1] using hr') id

theorem accounts_tryToRemoveDestination :
    (ledger count strict).Accounts (fun _ => False) False False False tryToRemoveDestination := by
  refine accounts_call fun (r : Removal) => ?_
  match r with
  | .closed (some e) =>
    exact accounts_backupError_last (by simp) (by simp)
  | .closed none => exact accounts_pure (by simp) (by simp)
  | .kept => exact accounts_pure (by simp) (by simp)

theorem accounts_createDestinationAndCopy (src path : Path) :
    Returns count strict (createDestinationAndCopy src path) := by
  refine accounts_call fun (source_exists : Bool) => ?_
  split
  · refine accounts_call fun (r : Creation) => ?_
    have hcopy : Returns count strict (do
        let r ← copyFileData src
        if r ≠ 0 then return r
        else
          tryToRemoveDestination
          return 0) := by
      refine accounts_bind (accounts_copyFileData src) fun r => ?_
      split
      · rename_i hr
        exact accounts_pure (by simp) id
      · rename_i hr
        refine accounts_bind accounts_tryToRemoveDestination fun _ => ?_
        exact accounts_pure (by simpa using hr) id
    match r with
    | .opened (some e) => exact accounts_pure (by simp) (by simp)
    | .opened none => exact hcopy.of_clean (by simp) (by simp)
    | .existing => exact hcopy.of_clean (by simp) (by simp)
    | .unlinked =>
      refine accounts_bind accounts_tryToRemoveDestination fun _ => ?_
      exact accounts_pure (by simp) (by simp)
  · refine accounts_bind accounts_tryToRemoveDestination fun _ => ?_
    exact accounts_pure (by simp) (by simp)

theorem accounts_copyRegularFile (src path : Path) :
    Returns count strict (copyRegularFile src path) := by
  refine accounts_call fun (r : Option Errno) => ?_
  cases r with
  | some e =>
    dsimp only
    split
    · rename_i he
      exact accounts_pure (by simp [he]) (by simp)
    · rename_i he
      exact accounts_backupError (by simp [he]) (accounts_pure (by simp [he]) id)
  | none =>
    refine accounts_bind (accounts_createDestinationAndCopy src path) fun result => ?_
    refine accounts_call fun (r : Option Errno) => ?_
    cases r with
    | some e => exact accounts_backupError (by simp) (accounts_pure (by simp) id)
    | none => exact accounts_pure (by simp) (by simp)

theorem accounts_addDirEntriesToTodo (file : Path) :
    Returns count strict (addDirEntriesToTodo file) := by
  refine accounts_loop (fun b => ?_) _
  refine accounts_call fun (r : Option Path) => ?_
  cases r with
  | none => exact accounts_pure (by simp) (by simp)
  | some name =>
    refine accounts_state fun m => ?_
    split
    · exact accounts_pure (by simp) (by simp)
    · split
      · exact accounts_pure (by simp) (by simp)
      · exact accounts_todo (accounts_pure (by simp) (by simp))

theorem accounts_copyDirectory (dir : Option Errno) (dest file : Path) :
    Returns count strict (copyDirectory dir dest file) := by
  have hentries : Returns count strict (copyDirectory.entries dir file) := by
    cases dir with
    | some e => exact accounts_stuck
    | none =>
      refine accounts_bind (accounts_addDirEntriesToTodo file) fun r => ?_
      split
      · rename_i hr
        refine accounts_call fun (_ : Option Errno) => ?_
        exact accounts_pure (by simp [hr]) (by simp)
      · rename_i hr
        refine accounts_call fun (r : Option Errno) => ?_
        cases r with
        | some e => exact accounts_backupError (by simp) (accounts_pure (by simp) id)
        | none => exact accounts_pure (by simpa using hr) (by simp)
  refine accounts_call fun (r : Option Errno) => ?_
  cases r with
  | none => exact hentries.of_clean (by simp) (by simp)
  | some e =>
    dsimp only
    split
    · rename_i he
      exact hentries.of_clean (by simp [he]) (by simp)
    · rename_i he
      refine accounts_reportError (by simp [he]) ?_
      cases dir with
      | some _ => exact accounts_pure (by simp [he]) id
      | none =>
        refine accounts_call fun (_ : Option Errno) => ?_
        exact accounts_pure (by simp [he]) (by simp)

theorem accounts_copyFullPath (D : DirectorySet) (source dest file : Path) :
    Returns count strict (copyFullPath D source dest file) := by
  rw [copyFullPath]
  split
  · exact accounts_pure (by simp) id
  · refine accounts_call fun (r : Except Errno FileKind) => ?_
    match r with
    | .error e =>
      dsimp only
      split
      · rename_i he
        exact accounts_pure (by simp [he]) (by simp)
      · rename_i he
        exact accounts_reportError (by simp [he]) (accounts_pure (by simp [he]) id)
    | .ok .regular => exact (accounts_copyRegularFile source dest).of_clean (by simp) (by simp)
    | .ok .directory =>
      refine accounts_call fun (dir : Option Errno) => ?_
      cases dir with
      | none => exact (accounts_copyDirectory none dest file).of_clean (by simp) (by simp)
      | some e =>
        dsimp only
        split
        · rename_i he
          exact (accounts_copyDirectory (some e) dest file).of_clean (by simp [he]) (by simp)
        · rename_i he
          exact accounts_backupError (by simp [he]) (accounts_pure (by simp [he]) id)
    | .ok .other => exact accounts_pure (by simp) (by simp)

theorem accounts_copyStrippedFile (D : DirectorySet) (source dest file : Path) :
    Returns count strict (copyStrippedFile D source dest file) := by
  rw [copyStrippedFile]
  split
  · exact accounts_copyFullPath D source dest []
  · exact accounts_copyFullPath D _ _ file

/-! ## The directories -/

/-- An entry in a directory that should be empty is carried for the last directory only. -/
theorem accounts_verifyDestinationIsEmpty (index : Nat) :
    (ledger count strict).Accounts (fun r => index + 1 = count ∧ r ≠ 0) False False False
      (verifyDestinationIsEmpty index) := by
  refine accounts_loop (fun b => ?_) _
  refine accounts_call fun (r : Except Errno (Option Path)) => ?_
  have hwhy : ∀ p : Prop, p → (False ∨ index + 1 = count ∧ p) ∨ (False ∨ index + 1 ≠ count ∧ p) ∨
      False := by
    intro p hp
    simpa [hp] using em (index + 1 = count)
  match r with
  | .error e => exact accounts_backupError (hwhy _ trivial) (accounts_pure (by simp) id)
  | .ok none => exact accounts_pure (by simp) (by simp)
  | .ok (some name) =>
    dsimp only
    split
    · rename_i hdot
      exact accounts_pure (by simp [hdot]) (by simp [hdot])
    · rename_i hdot
      have hdot : isDot name = false := by simpa using hdot
      exact accounts_backupError (hwhy _ hdot) (accounts_pure (by simp [hdot]) id)

theorem accounts_validateFrom {n i : Nat} {r : Int} (hi : i + n = count) (hd : ¬ d)
    (hc : c ↔ n = 0 ∧ r ≠ 0) :
    (ledger count strict).Accounts (fun r : Int => r ≠ 0) c d q (validateFrom n i r) := by
  induction n generalizing i r c d q with
  | zero => exact accounts_pure (by simp [hc]) hd
  | succ n ih =>
    have hc : ¬ c := by simp [hc]
    refine accounts_call fun (s : Except Errno FileKind) => ?_
    match s with
    | .error e => exact accounts_backupError (by simp) (accounts_pure (by simp) id)
    | .ok .regular => exact accounts_backupError (by simp) (accounts_pure (by simp) id)
    | .ok .other => exact accounts_backupError (by simp) (accounts_pure (by simp) id)
    | .ok .directory =>
      refine accounts_call fun (s : Option Errno) => ?_
      cases s with
      | some e => exact accounts_backupError (by simp) (accounts_pure (by simp) id)
      | none =>
        refine accounts_bind (accounts_verifyDestinationIsEmpty i) fun r => ?_
        refine accounts_call fun (s : Option Errno) => ?_
        cases s with
        | some e => exact accounts_backupError (by simp) (accounts_pure (by simp) id)
        | none =>
          have hlast : i + 1 = count ↔ n = 0 := by omega
          exact ih (by omega) (by simpa using hd) (by simp [hc, hlast])

theorem accounts_validate (D : DirectorySet) : Returns D.dirs.length strict (validate D) :=
  accounts_validateFrom (Nat.zero_add _) id (by simp)

theorem accounts_createSubdirectories (directories : List Path) :
    Returns count strict (createSubdirectories directories) := by
  induction directories with
  | nil => exact accounts_pure (by simp) id
  | cons directory rest ih =>
    refine accounts_call fun (r : Option Errno) => ?_
    cases r with
    | none => exact ih.of_clean (by simp) (by simp)
    | some e =>
      dsimp only
      split
      · rename_i he
        exact ih.of_clean (by simp [he]) (by simp)
      · rename_i he
        exact accounts_pure (by simp [he]) (by simp)

theorem accounts_openPath (path : Path) : Returns count strict (openPath path) := by
  refine accounts_call fun (r : Except Errno FileKind) => ?_
  cases r with
  | ok kind => exact accounts_pure (by simp) (by simp)
  | error e =>
    dsimp only
    split
    · rename_i he
      exact (accounts_createSubdirectories _).of_clean (by simp [he]) (by simp)
    · rename_i he
      exact accounts_pure (by simp [he]) (by simp)

theorem accounts_prepareDirectoriesForBackup (D : DirectorySet) (names : List (Option Path)) :
    Returns count strict (prepareDirectoriesForBackup D names) := by
  induction names with
  | nil => exact accounts_pure (by simp) id
  | cons name rest ih =>
    cases name with
    | none => exact ih
    | some name =>
      rw [prepareDirectoriesForBackup]
      split
      · exact ih
      · split
        · exact accounts_stuck
        · split
          · exact accounts_pure (by simp) id
          · refine accounts_bind (accounts_openPath _) fun r => ?_
            split
            · rename_i hr
              exact accounts_backupError (by simp [hr]) (accounts_pure (by simp) id)
            · rename_i hr
              have hr : r = 0 := by simpa using hr
              refine accounts_call fun (s : Creation) => ?_
              match s with
              | .opened (some e) =>
                exact accounts_backupError (by simp) (accounts_pure (by simp) id)
              | .opened none => exact ih.of_clean (by simp [hr]) (by simp)
              | .existing => exact ih.of_clean (by simp [hr]) (by simp)
              | .unlinked => exact ih.of_clean (by simp [hr]) (by simp)

theorem accounts_disableDescriptions (n : Nat) :
    (ledger count strict).Accounts (fun _ => False) False False False (disableDescriptions n) := by
  induction n with
  | zero => exact accounts_pure Iff.rfl id
  | succ n ih =>
    refine accounts_bind accounts_tryToRemoveDestination fun _ => ?_
    exact ih.of_clean (by simp) id

/-! ## The call -/

theorem accounts_doCopyRound (D : DirectorySet) (source dest : Path) (n_known : Nat) :
    (ledger count False).Accounts (Sum.elim (fun r => r ≠ 0) fun _ => False) False False False
      (doCopyRound D source dest n_known) := by
  rw [doCopyRound]
  split
  · refine accounts_change (fun m => ⟨rfl, rfl, id, False.elim⟩) (fun m h => h) ?_
    exact accounts_pure (by simp) id
  · refine accounts_state fun m => ?_
    split
    · exact accounts_pure (by simp) id
    · split
      · refine accounts_call fun (r : Int) => ?_
        split
        · rename_i hr
          exact accounts_pure (by simp [hr]) (by simp)
        · rename_i hr
          refine accounts_todo (accounts_bind (accounts_copyStrippedFile D _ _ _) fun r' => ?_)
          split
          · rename_i hr'
            exact accounts_pure (by simp [hr']) (by simp)
          · rename_i hr'
            have hboth : r = 0 ∧ r' = 0 := by simpa using And.intro hr hr'
            refine accounts_call fun (files : List Path) => accounts_todo ?_
            exact accounts_state fun m => accounts_pure (by simp [hboth]) (by simp)
      · exact accounts_stuck

theorem accounts_doCopy (D : DirectorySet) (source dest : Path) :
    Returns count False (doCopy D source dest) := by
  refine accounts_todo (accounts_state fun m => ?_)
  refine accounts_bind (accounts_loop (accounts_doCopyRound D source dest) _) fun r => ?_
  exact accounts_todo (accounts_pure (by simp) id)

theorem accounts_sessionDoCopy (D : DirectorySet) (dirs : List (Path × Path)) :
    Returns count False (sessionDoCopy D dirs) := by
  induction dirs with
  | nil => exact accounts_pure (by simp) id
  | cons dir rest ih =>
    obtain ⟨source, dest⟩ := dir
    refine accounts_bind (accounts_doCopy D source dest) fun r => ?_
    split
    · rename_i hr
      exact accounts_pure (by simp) id
    · rename_i hr
      exact ih.of_clean (by simpa using hr) id

theorem accounts_copyPhase (x : Request) : Returns count False (copyPhase x) := by
  refine accounts_todo (accounts_bind (accounts_prepareDirectoriesForBackup _ _) fun r => ?_)
  split
  · exact accounts_pure (by simp) id
  · rename_i hr
    have hr : r = 0 := by simpa using hr
    refine accounts_change (fun m => ⟨rfl, rfl, fun _ => rfl, fun _ => rfl⟩) (fun m h => h) ?_
    refine accounts_bind (accounts_sessionDoCopy _ _) fun r' => ?_
    split
    · rename_i hr'
      exact accounts_backupError (by simp [hr']) (accounts_pure (by simp [hr]) id)
    · rename_i hr'
      exact accounts_pure (by simpa [hr] using hr') id

/-- `do_backup` when the backup system is not dead. -/
theorem accounts_request (x : Request) : Returns x.dirs.dirs.length False (request x) := by
  refine accounts_call fun (r : Int) => ?_
  split
  · rename_i hr
    exact accounts_backupError (by simp [hr]) (accounts_pure (by simp [hr]) id)
  · rename_i hr
    have hr : r = 0 := by simpa using hr
    refine accounts_call fun (s : Option Errno) => ?_
    cases s with
    | some e =>
      dsimp only
      split
      · exact accounts_backupError (by simp) (accounts_pure (by simp) id)
      · exact accounts_fatalError (by simp) (accounts_pure (by simp) id)
    | none =>
      refine accounts_bind (accounts_validate x.dirs) fun r' => ?_
      split
      · rename_i hr'
        exact accounts_pure (by simp [hr']) (by simp)
      · rename_i hr'
        have hr' : r' = 0 := by simpa using hr'
        refine accounts_bind (accounts_copyPhase x) fun r'' => ?_
        refine accounts_change (fun m => ⟨rfl, rfl, id, fun _ => rfl⟩) (fun m h => h) ?_
        refine accounts_bind (accounts_disableDescriptions _) fun _ => ?_
        exact accounts_todo (accounts_pure (by simp [hr, hr']) (by simp))

end

end TokuBackup.DoBackup
