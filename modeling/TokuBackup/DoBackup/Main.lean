import TokuBackup.DoBackup.Accounts

/-!
# Zero means complete

When `do_backup` returns zero, no error has been reported and every copier has come to the end
of its todo list, unless a failure was lost: that of closing a backup file, of closing the
source before it is opened again, or of a destination directory that is not the last one.
-/

namespace TokuBackup.DoBackup

open Kernel Lib Script

section

variable {count : Nat} {D : DirectorySet} {l : List Path}

/-! ## Complete copies -/

def Failure (count : Nat) (e : Event) : Prop := e.Carried count ∨ e.Lost count

/-- The copy is enabled, and the copiers of the directories `l` have come to their end. -/
def Copying (l : List Path) (m : Manager) : Prop := m.copyEnabled = true ∧ m.emptied = l

/-- Without a failure a function of the copier leaves the copy enabled. -/
theorem hoare_copying {p : BackupM Int} (h : Returns count True p) :
    Hoare (Failure count) (Copying l) p fun r m => r = 0 ∧ Copying l m := by
  refine Sat.mono (h.hoare (Copying l)) fun m t r m' hm hnone hcopying => ?_
  obtain ⟨hr, m'', ⟨hcopy, hl⟩, hquiet⟩ := hm hnone hcopying
  exact ⟨not_not.mp hr, hquiet.copyEnabled hcopy, (hquiet.emptied trivial).trans hl⟩

/-- Without a failure a round of the copier goes on, or has found the todo list empty. -/
theorem hoare_doCopyRound (source dest : Path) (n_known : Nat) :
    Hoare (Failure count) (Copying l) (doCopyRound D source dest n_known)
      (Sum.elim (fun r m => r = 0 → Copying (l ++ [source]) m) fun _ => Copying l) := by
  rw [doCopyRound]
  split
  · refine hoare_change (Copying (l ++ [source])) (fun m hm => ⟨hm.1, ?_⟩) ?_
    · rw [hm.2]
    · exact hoare_pure fun m hm _ => hm
  · refine hoare_state fun m => ?_
    split
    · rename_i hdisabled
      refine hoare_pure fun m' hm _ => ?_
      obtain ⟨rfl, hcopy, -⟩ := hm
      rw [hdisabled] at hcopy
      cases hcopy
    · split
      · refine hoare_call fun (r : Int) => ?_
        split
        · rename_i hr
          exact hoare_pure fun m' _ h => absurd h hr
        · refine hoare_change (Copying l) (fun m hm => hm.2) ?_
          refine hoare_bind (hoare_copying (accounts_copyStrippedFile D _ _ _)) fun r => ?_
          split
          · rename_i hr
            exact hoare_pure fun m' _ h => absurd h hr
          · refine hoare_call fun (files : List Path) => ?_
            refine hoare_change (Copying l) (fun m hm => hm.2) ?_
            exact hoare_state fun m => hoare_pure fun m' hm => hm.2
      · exact hoare_stuck

theorem hoare_doCopy (source dest : Path) :
    Hoare (Failure count) (Copying l) (doCopy D source dest)
      fun r m => r = 0 → Copying (l ++ [source]) m := by
  refine hoare_change (Copying l) (fun m hm => hm) (hoare_state fun m => ?_)
  refine hoare_bind (Hoare.weaken (hoare_loop (hoare_doCopyRound source dest) _) fun m' hm => hm.2)
    fun r => ?_
  refine hoare_change (fun m => r = 0 → Copying (l ++ [source]) m) (fun m hm => hm) ?_
  exact hoare_pure fun m hm => hm

theorem hoare_sessionDoCopy (dirs : List (Path × Path)) :
    Hoare (Failure count) (Copying l) (sessionDoCopy D dirs)
      fun r m => r = 0 → Copying (l ++ dirs.map Prod.fst) m := by
  induction dirs generalizing l with
  | nil =>
    refine hoare_pure fun m hm _ => ?_
    rw [List.map_nil, List.append_nil]
    exact hm
  | cons dir rest ih =>
    obtain ⟨source, dest⟩ := dir
    refine hoare_bind (hoare_doCopy source dest) fun r => ?_
    split
    · rename_i hr
      exact hoare_pure fun m _ h => absurd h hr
    · rename_i hr
      have hrest := @ih (l ++ [source])
      rw [List.append_assoc, List.singleton_append] at hrest
      exact hrest.weaken fun m hm => hm (not_not.mp hr)

theorem hoare_fails {pre post : Manager → Prop} {g : Manager → Manager} {r : Int} (hr : r ≠ 0) :
    Hoare (Failure count) pre (change g >>= fun _ => pure r) fun r m => r = 0 → post m :=
  hoare_change (fun _ => True) (fun _ _ => trivial) (hoare_pure fun _ _ h => absurd h hr)

theorem hoare_copyPhase (x : Request) :
    Hoare (Failure count) (fun m => m.emptied = []) (copyPhase x)
      fun r m => r = 0 → m.emptied = x.dirs.dirs.map Prod.fst := by
  refine hoare_change (fun m => m.emptied = []) (fun m hm => hm) ?_
  have hprepare : Returns count True (prepareDirectoriesForBackup x.dirs x.open_files) :=
    accounts_prepareDirectoriesForBackup x.dirs x.open_files
  refine hoare_bind (hprepare.hoare fun m => m.emptied = []) fun r => ?_
  split
  · rename_i hr
    exact hoare_pure fun m _ h => absurd h hr
  · refine hoare_change (Copying []) (fun m' hm => ?_) ?_
    · obtain ⟨-, m, hm, hquiet⟩ := hm
      exact ⟨rfl, (hquiet.emptied trivial).trans hm⟩
    · refine hoare_bind (hoare_sessionDoCopy x.dirs.dirs) fun r' => ?_
      split
      · rename_i hr'
        exact hoare_fails hr'
      · rename_i hr'
        exact hoare_pure fun m hm _ => (hm (not_not.mp hr')).2

theorem hoare_request (x : Request) :
    Hoare (Failure x.dirs.dirs.length) (fun m => m.emptied = []) (request x)
      fun r m => r = 0 → m.emptied = x.dirs.dirs.map Prod.fst := by
  refine hoare_call fun (r : Int) => ?_
  split
  · rename_i hr
    exact hoare_fails hr
  · refine hoare_call fun (s : Option Errno) => ?_
    cases s with
    | some e =>
      dsimp only
      split
      · exact hoare_fails e.code_ne
      · exact hoare_fails e.code_ne
    | none =>
      have hvalidate : Returns x.dirs.dirs.length True (validate x.dirs) := accounts_validate x.dirs
      refine hoare_bind (hvalidate.hoare fun m => m.emptied = []) fun r => ?_
      split
      · rename_i hr
        exact hoare_pure fun m _ h => absurd h hr
      · refine hoare_bind (Hoare.weaken (hoare_copyPhase x) fun m' hm => ?_) fun r => ?_
        · obtain ⟨-, m, hm, hquiet⟩ := hm
          exact (hquiet.emptied trivial).trans hm
        · refine hoare_change (fun m => r = 0 → m.emptied = x.dirs.dirs.map Prod.fst)
            (fun m hm => hm) ?_
          have hdisable : (ledger x.dirs.dirs.length True).Accounts (fun _ => False) False False
              False (disableDescriptions x.descriptions) := accounts_disableDescriptions _
          refine hoare_bind (hdisable.hoare fun m => r = 0 → m.emptied = x.dirs.dirs.map Prod.fst)
            fun _ => ?_
          refine hoare_change (fun m => r = 0 → m.emptied = x.dirs.dirs.map Prod.fst)
            (fun m' hm hr => ?_) (hoare_pure fun m hm => hm)
          obtain ⟨-, m, hm, hquiet⟩ := hm
          exact (hquiet.emptied trivial).trans (hm hr)

/-! ## The main result -/

/-- The backup is complete: no error was reported, the copy was never disabled, and the copier
of every directory has found its todo list empty. -/
structure Complete (x : Request) (m : Manager) : Prop where
  reports : m.reports = []
  copyDisabled : m.copyDisabled = false
  emptied : m.emptied = x.dirs.dirs.map Prod.fst

/-- Zero means that the backup is complete exactly when a failure is carried, so that the
result is not zero, or none is lost. -/
theorem zero_complete_iff {x : Request} {dead : Bool} {script : List Event} {r : Int} {m : Manager}
    (h : execute x dead script = some (r, m)) :
    (r = 0 → Complete x m) ↔
      (∃ e ∈ script, e.Carried x.dirs.dirs.length) ∨ ∀ e ∈ script, ¬ e.Lost x.dirs.dirs.length := by
  rw [execute] at h
  split at h
  · rename_i r' m' hrun
    cases h
    cases dead with
    | true =>
      cases hrun
      simp
    | false =>
      have hrun : request x (script, _) = some (r, [], m) := hrun
      obtain ⟨t, ht, hcarried, hlost, hquiet⟩ := accounts_request x _ _ _ _ _ hrun
      obtain ⟨t', ht', hemptied⟩ := hoare_request x _ _ _ _ _ hrun
      rw [List.append_nil] at ht ht'
      subst ht
      subst ht'
      simp only [ledger_carried, ledger_lost, false_or] at hcarried hlost hquiet
      constructor
      · intro hcomplete
        by_cases hr : r = 0
        · refine Or.inr fun e he hl => ?_
          exact hlost (Or.inr ⟨e, he, hl⟩) (hcomplete hr).reports
        · exact Or.inl (hcarried.mp hr)
      · intro hcond hr
        have hnot : ¬ ∃ e ∈ script, e.Carried x.dirs.dirs.length := fun hc => hcarried.mpr hc hr
        have hnone : ∀ e ∈ script, ¬ e.Lost x.dirs.dirs.length := hcond.resolve_left hnot
        have hnone' : ∀ e ∈ script, ¬ e.Carried x.dirs.dirs.length :=
          fun e he hc => hnot ⟨e, he, hc⟩
        have hsame := hquiet id id id fun e he => ⟨hnone' e he, hnone e he⟩
        refine ⟨hsame.reports, hsame.copyDisabled, hemptied (fun e he hf => ?_) rfl hr⟩
        exact hf.elim (hnone' e he) (hnone e he)
  · cases h

end

/-! ## Executions -/

/-- Back up `/s` to `/d`, excluding nothing; no file is open. -/
def backUpS : Request := ⟨⟨[(['/', 's'], ['/', 'd'])], fun _ => false⟩, [], 0⟩

def event (c : Call) (r : c.Answer) : Event := ⟨c, r⟩

def success : Option Errno := none

/-- The directory has one file of three bytes; closing its backup ends with `close`. -/
def oneFile (close : Option Errno) : List Event :=
  [event .poll (0 : Int), event .trylock success,
    event (.statDestination 0) (Except.ok (ε := Errno) FileKind.directory),
    event (.opendirDestination 0) success,
    event (.readdirDestination 0) (Except.ok (ε := Errno) (none : Option Path)),
    event (.closedirDestination 0) success,
    event .poll (0 : Int),
    event (.statSource ['/', 's']) (Except.ok (ε := Errno) FileKind.directory),
    event (.opendirSource ['/', 's']) success, event (.mkdir ['/', 'd']) (some Errno.eexist),
    event .readdirSource (some ['a']), event .readdirSource (none : Option Path),
    event .closedirSource success, event .added ([] : List Path),
    event .poll (0 : Int),
    event (.statSource ['/', 's', '/', 'a']) (Except.ok (ε := Errno) FileKind.regular),
    event (.openSource ['/', 's', '/', 'a']) success,
    event (.lstatSource ['/', 's', '/', 'a']) true,
    event (.createDestination ['/', 'd', '/', 'a']) (Creation.opened none),
    event .clock success, event .flags false, event .read (Except.ok (ε := Errno) 3),
    event .poll (0 : Int), event .write (Except.ok (ε := Errno) 3),
    event .clock success, event .throttle false,
    event .flags false, event .read (Except.ok (ε := Errno) 0),
    event .removeDestination (Removal.closed close), event .closeSource success,
    event .added ([] : List Path)]

theorem zero_complete_iff_oneFile :
    ∃ m, execute backUpS false (oneFile none) = some (0, m) ∧ Complete backUpS m := by
  have hrun : ∃ m, execute backUpS false (oneFile none) = some (0, m) := ⟨_, rfl⟩
  obtain ⟨m, hrun⟩ := hrun
  refine ⟨m, hrun, (zero_complete_iff hrun).mpr (Or.inr ?_) rfl⟩
  simp [oneFile, event, success, isDot]

/-- The error of `close` is reported, and the result is zero. -/
theorem not_zero_complete_closeFails :
    ¬ ∀ x dead script r m, execute x dead script = some (r, m) → r = 0 → Complete x m := by
  intro h
  have hrun : ∃ m, execute backUpS false (oneFile (some .eio)) = some (0, m) ∧
      m.copyDisabled = true := ⟨_, rfl, rfl⟩
  obtain ⟨m, hrun, hdisabled⟩ := hrun
  have hcomplete := h _ _ _ _ m hrun rfl
  rw [hcomplete.copyDisabled] at hdisabled
  cases hdisabled

end TokuBackup.DoBackup
