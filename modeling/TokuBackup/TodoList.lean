import TokuBackup.DirectorySet
import TokuBackup.Lib.Machine

/-!
# The todo list of a session

`copier::m_todo` is shared by the passes of the backup thread, one for each directory of the
set, and by the application threads, whose captured renames add to it. Each section under
`m_todo_mutex` is one step, and the threads take their steps in any order.

What a pass does with a file is left to the actions: which entries a directory has, and which
errors are returned.
-/

namespace TokuBackup.TodoList

open Kernel Lib

/-! ## State -/

/-- A string that `strdup` made for the list: which allocation it is and its text. -/
structure Entry where
  id : Nat
  text : Path
  /-- Ghost: the index of the source directory that the entry was added for. -/
  directory : Nat
  deriving DecidableEq

/-- Where the backup thread is. -/
inductive Pc where
  /-- The loop of `backup_session::do_copy`. -/
  | next
  /-- The head of the loop of `copier::do_copy`. -/
  | loop (n_known : Nat)
  /-- `copy_is_enabled` has returned true. -/
  | front
  /-- `fname` is the first entry; `poll` is next. -/
  | poll (fname : Entry)
  /-- `pop_front` is next. -/
  | pop (fname : Entry)
  /-- In `copy_stripped_file`. -/
  | copying (fname : Entry)
  /-- `n_known = m_todo.size()` is next. -/
  | size
  /-- The label `out`, where `cleanup` is next. -/
  | out (r : Int)
  /-- `backup_session::do_copy` has returned; the session still is there. -/
  | stopping
  /-- The session is deleted. -/
  | ended
  /-- A null entry was used as a string, or the front of an empty list was taken. -/
  | crashed
  deriving DecidableEq

structure State where
  /-- `m_todo`; an entry that `cleanup` has freed is null. -/
  todo : List (Option Entry)
  /-- The directory whose pass runs or is next. -/
  index : Nat
  pc : Pc
  copyEnabled : Bool
  /-- The number of strings that were pushed. -/
  pushed : Nat
  /-- Ghost: the strings that were freed, in this order. -/
  freed : List Nat

/-- `m_todo.push_back(strdup(text))` -/
def State.push (s : State) (text : Path) (directory : Nat) : State :=
  { s with todo := s.todo ++ [some ⟨s.pushed, text, directory⟩], pushed := s.pushed + 1 }

/-- `cleanup` frees what is left and makes it null. -/
def State.cleanup (s : State) : State :=
  { s with
    todo := s.todo.map fun _ => none
    freed := s.freed ++ (s.todo.filterMap id).map Entry.id }

/-! ## Steps -/

inductive Action where
  /-- The captured rename to `full_new_path` adds to the list. -/
  | addToCopyTodoList (full_new_path : Path)
  /-- An error disables the copy. -/
  | disableCopy
  /-- The step of `backup_session::do_copy`. -/
  | next
  | loop
  | front
  | poll (r : Int)
  | pop
  /-- An entry of the directory that is copied is added. -/
  | addDirEntry (new_name : Path)
  /-- `copy_stripped_file` returns. -/
  | copied (r : Int)
  | size
  | cleanup
  /-- The session is cleaned up and deleted. -/
  | endSession

/-- `add_to_copy_todo_list` in `capture_rename`, in a session: what is added is the path in
the backup. -/
def stepAdd (D : DirectorySet) (s : State) (full_new_path : Path) : Option State :=
  if s.pc = .ended ∨ s.pc = .crashed then none
  else
    match D.findIndexMatchingPrefix full_new_path, D.translatePrefixOfRealpath full_new_path with
    | some directory, some full_new_destination_path =>
      some (s.push full_new_destination_path directory)
    | _, _ => none

/-! ### The steps of a pass, `copier::do_copy` -/

def stepLoop (s : State) : Option State :=
  match s.pc with
  | .loop n_known =>
    if n_known ≠ 0 ∧ s.copyEnabled then some { s with pc := .front }
    else some { s with pc := .out 0 }
  | _ => none

def stepFront (s : State) : Option State :=
  match s.pc with
  | .front =>
    match s.todo with
    | some fname :: _ => some { s with pc := .poll fname }
    | _ => some { s with pc := .crashed }
  | _ => none

def stepPoll (s : State) (r : Int) : Option State :=
  match s.pc with
  | .poll fname => some { s with pc := if r ≠ 0 then .out r else .pop fname }
  | _ => none

def stepPop (s : State) : Option State :=
  match s.pc with
  | .pop fname => some { s with todo := s.todo.tail, pc := .copying fname }
  | _ => none

def stepAddDirEntry (s : State) (new_name : Path) : Option State :=
  match s.pc with
  | .copying _ => some (s.push new_name s.index)
  | _ => none

/-- The string is freed after the copy. -/
def stepCopied (s : State) (r : Int) : Option State :=
  match s.pc with
  | .copying fname =>
    some { s with freed := s.freed ++ [fname.id], pc := if r ≠ 0 then .out r else .size }
  | _ => none

def stepSize (s : State) : Option State :=
  match s.pc with
  | .size => some { s with pc := .loop s.todo.length }
  | _ => none

/-- The end of the pass; after an error no other one follows. -/
def stepCleanup (s : State) : Option State :=
  match s.pc with
  | .out r =>
    if r ≠ 0 then some { s.cleanup with pc := .stopping }
    else some { s.cleanup with index := s.index + 1, pc := .next }
  | _ => none

/-! ### The steps around the passes -/

/-- The next pass starts with `"."`. -/
def stepNext (D : DirectorySet) (s : State) : Option State :=
  match s.pc with
  | .next =>
    if s.index < D.dirs.length then
      let s := s.push ['.'] s.index
      some { s with pc := .loop s.todo.length }
    else some { s with pc := .stopping }
  | _ => none

def stepEndSession (s : State) : Option State :=
  match s.pc with
  | .stopping => some { s.cleanup with pc := .ended }
  | _ => none

def step (D : DirectorySet) (s : State) : Action → Option State
  | .addToCopyTodoList full_new_path => stepAdd D s full_new_path
  | .disableCopy => some { s with copyEnabled := false }
  | .next => stepNext D s
  | .loop => stepLoop s
  | .front => stepFront s
  | .poll r => stepPoll s r
  | .pop => stepPop s
  | .addDirEntry new_name => stepAddDirEntry s new_name
  | .copied r => stepCopied s r
  | .size => stepSize s
  | .cleanup => stepCleanup s
  | .endSession => stepEndSession s

/-- The session was just made. When the open files could not be prepared, no pass follows. -/
structure Initial (s : State) : Prop where
  todo : s.todo = []
  index : s.index = 0
  pc : s.pc = .next ∨ s.pc = .stopping
  pushed : s.pushed = 0
  freed : s.freed = []

section

variable {D : DirectorySet} {s s' s₀ : State} {a : Action}

/-! ## What the list promises -/

/-- No null entry is taken, what is copied belongs to the directory of the pass, a pass starts
without the null entries that the one before has left, and when the session is over every
string was freed exactly once, and none twice at any time. -/
structure Survives (D : DirectorySet) (s : State) : Prop where
  taken : s.pc ≠ .crashed
  resolved : ∀ fname, s.pc = .copying fname → fname.directory = s.index
  clean : s.pc = .next → s.index < D.dirs.length → none ∉ s.todo
  once : s.freed.Nodup
  all : s.pc = .ended → ∀ id < s.pushed, s.freed.count id = 1

/-- An entry that is added now may be taken in the pass `s.index`. -/
def State.taking (D : DirectorySet) (s : State) : Bool :=
  match s.pc with
  | .next => s.index < D.dirs.length
  | .loop n_known => n_known ≠ 0
  | .front | .poll _ | .pop _ | .copying _ | .size => true
  | .out _ | .stopping | .ended | .crashed => false

/-- The condition on a step: while a pass may still take what is added, only renames into its
directory are added, unless the copy is disabled, and a pass that ends without an error, but
is not the last one, ends with an empty list. -/
def TodoOk (D : DirectorySet) (s : State) : Action → Prop
  | .addToCopyTodoList full_new_path => s.taking D = true → s.copyEnabled = true →
      D.findIndexMatchingPrefix full_new_path = some s.index
  | .cleanup => s.pc = .out 0 → s.index + 1 < D.dirs.length → s.todo = []
  | _ => True

/-! ## The ledger -/

/-- The string that the backup thread has taken off the list. -/
def Pc.held : Pc → List Nat
  | .copying fname => [fname.id]
  | _ => []

/-- The strings that are in the list. -/
def State.listed (s : State) : List Nat := (s.todo.filterMap id).map Entry.id

/-- The strings are freed in the order in which they were pushed. -/
def Ledger (s : State) : Prop := s.freed ++ (s.pc.held ++ s.listed) = List.range s.pushed

theorem listed_push (text : Path) (directory : Nat) :
    (s.push text directory).listed = s.listed ++ [s.pushed] := by
  simp [State.push, State.listed]

theorem listed_cleanup : s.cleanup.listed = [] := by
  have hnone : s.cleanup.todo.filterMap id = [] := by simp [State.cleanup]
  rw [State.listed, hnone]
  rfl

theorem ledger_push (h : Ledger s) (text : Path) (directory : Nat) :
    Ledger (s.push text directory) := by
  have hpushed : (s.push text directory).pushed = s.pushed + 1 := rfl
  rw [Ledger, listed_push, hpushed, List.range_succ, ← h]
  simp [State.push]

/-- The thread goes on, with the same strings. -/
theorem Ledger.move (h : Ledger s) (hheld : s'.pc.held ++ s'.listed = s.pc.held ++ s.listed)
    (hfreed : s'.freed = s.freed) (hpushed : s'.pushed = s.pushed) : Ledger s' := by
  rw [Ledger, hheld, hfreed, hpushed]
  exact h

theorem ledger_cleanup (h : Ledger s) (hheld : s.pc.held = []) {pc : Pc} {index : Nat}
    (hpc : pc.held = []) : Ledger { s.cleanup with pc, index } := by
  have hlisted : State.listed { s.cleanup with pc, index } = [] := listed_cleanup
  rw [Ledger, hheld, List.nil_append] at h
  rw [Ledger, hlisted, hpc, List.append_nil, List.append_nil]
  exact h

/-! ## The invariant -/

/-- What the thread knows about the list where it is. -/
def Ready (s : State) : Prop :=
  match s.pc with
  | .loop n_known => n_known ≤ s.todo.length
  | .front => ∃ fname rest, s.todo = some fname :: rest ∧ fname.directory = s.index
  | .poll fname | .pop fname => ∃ rest, s.todo = some fname :: rest ∧ fname.directory = s.index
  | .copying fname => fname.directory = s.index
  | .ended => s.listed = []
  | .crashed => False
  | .next | .size | .out _ | .stopping => True

structure Inv (D : DirectorySet) (s : State) : Prop where
  ledger : Ledger s
  ready : Ready s
  filled : s.taking D = true → none ∉ s.todo
  placed : s.taking D = true → s.copyEnabled = true → ∀ e, some e ∈ s.todo → e.directory = s.index

theorem Inv.survives (h : Inv D s) : Survives D s := by
  have hnodup : (s.freed ++ (s.pc.held ++ s.listed)).Nodup := by
    rw [h.ledger]
    exact List.nodup_range
  have hready := h.ready
  refine ⟨fun hpc => ?_, fun fname hpc => ?_, fun hpc hlt => h.filled ?_, hnodup.of_append_left,
    fun hpc id hid => ?_⟩
  · rw [Ready, hpc] at hready
    exact hready
  · rw [Ready, hpc] at hready
    exact hready
  · rw [State.taking, hpc]
    simpa using hlt
  · rw [Ready, hpc] at hready
    have hfreed : s.freed = List.range s.pushed := by
      have hledger := h.ledger
      rw [Ledger, hpc, hready] at hledger
      simpa [Pc.held] using hledger
    rw [hfreed]
    exact List.count_eq_one_of_mem List.nodup_range (List.mem_range.mpr hid)

theorem inv_initial (h : Initial s) : Inv D s := by
  have hlisted : s.listed = [] := by rw [State.listed, h.todo]; rfl
  refine ⟨?_, ?_, fun _ => ?_, fun _ _ e he => ?_⟩
  · rw [Ledger, h.freed, h.pushed, hlisted]
    obtain hpc | hpc := h.pc
    · rw [hpc]
      rfl
    · rw [hpc]
      rfl
  · obtain hpc | hpc := h.pc
    · rw [Ready, hpc]
      trivial
    · rw [Ready, hpc]
      trivial
  · rw [h.todo]
    exact List.not_mem_nil
  · rw [h.todo] at he
    exact absurd he List.not_mem_nil

/-! ## The steps -/

theorem ready_push (h : Ready s) (hpc : s.pc ≠ .ended) (text : Path) (directory : Nat) :
    Ready (s.push text directory) := by
  have hsame : (s.push text directory).pc = s.pc := rfl
  rw [Ready] at h ⊢
  rw [hsame]
  cases hs : s.pc with
  | loop n_known =>
    rw [hs] at h
    simp only [State.push, List.length_append]
    exact Nat.le_add_right_of_le h
  | front =>
    rw [hs] at h
    obtain ⟨fname, rest, htodo, hdirectory⟩ := h
    exact ⟨fname,
      rest ++ [some ⟨s.pushed, text, directory⟩], by simp [State.push, htodo], hdirectory⟩
  | poll fname =>
    rw [hs] at h
    obtain ⟨rest, htodo, hdirectory⟩ := h
    exact ⟨rest ++ [some ⟨s.pushed, text, directory⟩], by simp [State.push, htodo], hdirectory⟩
  | pop fname =>
    rw [hs] at h
    obtain ⟨rest, htodo, hdirectory⟩ := h
    exact ⟨rest ++ [some ⟨s.pushed, text, directory⟩], by simp [State.push, htodo], hdirectory⟩
  | copying fname =>
    rw [hs] at h
    exact h
  | crashed =>
    rw [hs] at h
    exact h
  | ended => exact absurd hs hpc
  | _ => trivial

/-- An entry of the directory is added. -/
theorem Inv.push (h : Inv D s) (hpc : s.pc ≠ .ended) {directory : Nat}
    (hdirectory : s.taking D = true → s.copyEnabled = true → directory = s.index) (text : Path) :
    Inv D (s.push text directory) := by
  refine ⟨ledger_push h.ledger text directory, ready_push h.ready hpc text directory,
    fun htaking => ?_, fun htaking henabled e he => ?_⟩
  · simp only [State.push, List.mem_append, List.mem_singleton, reduceCtorEq, or_false]
    exact h.filled htaking
  · simp only [State.push, List.mem_append, List.mem_singleton, Option.some.injEq] at he
    obtain he | he := he
    · exact h.placed htaking henabled e he
    · rw [he]
      exact hdirectory htaking henabled

/-- The thread moves on, and the list stays as it is. -/
theorem Inv.move (h : Inv D s) (pc : Pc) (hready : Ready { s with pc })
    (hheld : pc.held = s.pc.held)
    (htaking : State.taking D { s with pc } = true → s.taking D = true) : Inv D { s with pc } := by
  refine ⟨h.ledger.move ?_ rfl rfl, hready, fun ht => h.filled (htaking ht),
    fun ht => h.placed (htaking ht)⟩
  have hlisted : State.listed { s with pc } = s.listed := rfl
  rw [hheld, hlisted]

theorem inv_stepAdd {full_new_path : Path} (h : Inv D s)
    (hok : TodoOk D s (.addToCopyTodoList full_new_path))
    (hstep : stepAdd D s full_new_path = some s') : Inv D s' := by
  rw [stepAdd] at hstep
  split at hstep
  · cases hstep
  · rename_i hpc
    split at hstep
    · rename_i directory dest hdirectory hdest
      cases hstep
      refine h.push (fun hended => hpc (Or.inl hended)) (fun htaking henabled => ?_) dest
      have hplace := hok htaking henabled
      rw [hdirectory] at hplace
      exact Option.some.inj hplace
    · cases hstep

theorem inv_loop (h : Inv D s) (hstep : stepLoop s = some s') : Inv D s' := by
  rw [stepLoop] at hstep
  split at hstep
  · rename_i n_known hpc
    have hready := h.ready
    rw [Ready, hpc] at hready
    split at hstep
    · rename_i hgo
      cases hstep
      have htaking : s.taking D = true := by
        rw [State.taking, hpc]
        simpa using hgo.1
      refine h.move .front ?_ (by rw [hpc]; rfl) fun _ => htaking
      have hfilled := h.filled htaking
      have hplaced := h.placed htaking hgo.2
      have hpos : 0 < s.todo.length := by omega
      obtain ⟨o, rest, htodo⟩ := List.exists_cons_of_length_pos hpos
      rw [htodo] at hfilled hplaced
      cases o with
      | none => exact absurd List.mem_cons_self hfilled
      | some fname => exact ⟨fname, rest, htodo, hplaced fname List.mem_cons_self⟩
    · cases hstep
      refine h.move (.out 0) trivial (by rw [hpc]; rfl) fun htaking => ?_
      cases htaking
  · cases hstep

theorem inv_front (h : Inv D s) (hstep : stepFront s = some s') : Inv D s' := by
  rw [stepFront] at hstep
  split at hstep
  · rename_i hpc
    have hready := h.ready
    rw [Ready, hpc] at hready
    obtain ⟨fname, rest, htodo, hdirectory⟩ := hready
    split at hstep
    · rename_i fname' rest' htodo'
      cases hstep
      rw [htodo] at htodo'
      cases htodo'
      refine h.move (.poll fname) ⟨rest, htodo, hdirectory⟩ (by rw [hpc]; rfl) fun _ => ?_
      rw [State.taking, hpc]
    · rename_i hnone
      exact absurd htodo (hnone fname rest)
  · cases hstep

theorem inv_poll {r : Int} (h : Inv D s) (hstep : stepPoll s r = some s') : Inv D s' := by
  rw [stepPoll] at hstep
  split at hstep
  · rename_i fname hpc
    have hready := h.ready
    rw [Ready, hpc] at hready
    cases hstep
    split
    · refine h.move (.out r) trivial (by rw [hpc]; rfl) fun htaking => ?_
      cases htaking
    · refine h.move (.pop fname) hready (by rw [hpc]; rfl) fun _ => ?_
      rw [State.taking, hpc]
  · cases hstep

theorem inv_pop (h : Inv D s) (hstep : stepPop s = some s') : Inv D s' := by
  rw [stepPop] at hstep
  split at hstep
  · rename_i fname hpc
    have hready := h.ready
    rw [Ready, hpc] at hready
    obtain ⟨rest, htodo, hdirectory⟩ := hready
    have htaking : s.taking D = true := by rw [State.taking, hpc]
    have htail : ∀ o ∈ s.todo.tail, o ∈ s.todo := fun o ho => List.mem_of_mem_tail ho
    cases hstep
    refine ⟨h.ledger.move ?_ rfl rfl, hdirectory, fun _ hnone => h.filled htaking (htail _ hnone),
      fun _ henabled e he => h.placed htaking henabled e (htail _ he)⟩
    simp [Pc.held, State.listed, hpc, htodo]
  · cases hstep

theorem inv_copied {r : Int} (h : Inv D s) (hstep : stepCopied s r = some s') : Inv D s' := by
  rw [stepCopied] at hstep
  split at hstep
  · rename_i fname hpc
    have htaking : s.taking D = true := by rw [State.taking, hpc]
    have hledger := h.ledger
    rw [Ledger, hpc] at hledger
    have hgone : ∀ pc : Pc, pc.held = [] →
        Ledger { s with freed := s.freed ++ [fname.id], pc } := by
      intro pc hheld
      rw [Ledger, hheld, List.nil_append, List.append_assoc]
      exact hledger
    cases hstep
    split
    · refine ⟨hgone _ rfl, trivial, fun htaking' => ?_, fun htaking' => ?_⟩
      · cases htaking'
      · cases htaking'
    · exact ⟨hgone _ rfl, trivial, fun _ => h.filled htaking, fun _ => h.placed htaking⟩
  · cases hstep

theorem inv_size (h : Inv D s) (hstep : stepSize s = some s') : Inv D s' := by
  rw [stepSize] at hstep
  split at hstep
  · rename_i hpc
    cases hstep
    refine h.move (.loop s.todo.length) le_rfl (by rw [hpc]; rfl) fun _ => ?_
    rw [State.taking, hpc]
  · cases hstep

theorem inv_addDirEntry {new_name : Path} (h : Inv D s)
    (hstep : stepAddDirEntry s new_name = some s') : Inv D s' := by
  rw [stepAddDirEntry] at hstep
  split at hstep
  · rename_i fname hpc
    cases hstep
    exact h.push (by simp [hpc]) (fun _ _ => rfl) new_name
  · cases hstep

theorem inv_next (h : Inv D s) (hstep : stepNext D s = some s') : Inv D s' := by
  rw [stepNext] at hstep
  split at hstep
  · rename_i hpc
    split at hstep
    · rename_i hlt
      cases hstep
      have htaking : s.taking D = true := by
        rw [State.taking, hpc]
        simpa using hlt
      have hpush := h.push (by simp [hpc]) (fun _ _ => rfl) ['.']
      refine hpush.move (.loop _) le_rfl (by rw [show (s.push ['.'] s.index).pc = _ from hpc]; rfl)
        fun _ => htaking
    · cases hstep
      refine h.move .stopping trivial (by rw [hpc]; rfl) fun htaking => ?_
      cases htaking
  · cases hstep

theorem inv_cleanup (h : Inv D s) (hok : TodoOk D s .cleanup)
    (hstep : stepCleanup s = some s') : Inv D s' := by
  rw [stepCleanup] at hstep
  split at hstep
  · rename_i r hpc
    have hheld : s.pc.held = [] := by rw [hpc]; rfl
    split at hstep
    · cases hstep
      refine ⟨ledger_cleanup h.ledger hheld rfl, trivial, fun htaking => ?_, fun htaking => ?_⟩
      · cases htaking
      · cases htaking
    · rename_i hr
      cases hstep
      have hempty : State.taking D { s.cleanup with index := s.index + 1, pc := .next } = true →
          s.cleanup.todo = [] := by
        intro htaking
        have hlt : s.index + 1 < D.dirs.length := by simpa [State.taking] using htaking
        have hr : r = 0 := by simpa using hr
        have htodo : s.todo = [] := hok (by rw [hpc, hr]) hlt
        simp [State.cleanup, htodo]
      refine ⟨ledger_cleanup h.ledger hheld rfl, trivial, fun htaking => ?_,
        fun htaking _ e he => ?_⟩
      · have htodo : s.cleanup.todo = [] := hempty htaking
        change none ∉ s.cleanup.todo
        rw [htodo]
        exact List.not_mem_nil
      · have htodo : s.cleanup.todo = [] := hempty htaking
        change some e ∈ s.cleanup.todo at he
        rw [htodo] at he
        cases he
  · cases hstep

theorem inv_endSession (h : Inv D s) (hstep : stepEndSession s = some s') : Inv D s' := by
  rw [stepEndSession] at hstep
  split at hstep
  · rename_i hpc
    cases hstep
    have hheld : s.pc.held = [] := by rw [hpc]; rfl
    refine ⟨ledger_cleanup h.ledger hheld rfl, listed_cleanup, fun htaking => ?_,
      fun htaking => ?_⟩
    · cases htaking
    · cases htaking
  · cases hstep

theorem inv_step (h : Inv D s) (hok : TodoOk D s a) (hstep : step D s a = some s') : Inv D s' := by
  cases a with
  | addToCopyTodoList full_new_path => exact inv_stepAdd h hok hstep
  | disableCopy =>
    cases hstep
    refine ⟨h.ledger, h.ready, h.filled, fun _ henabled => ?_⟩
    cases henabled
  | next => exact inv_next h hstep
  | loop => exact inv_loop h hstep
  | front => exact inv_front h hstep
  | poll r => exact inv_poll h hstep
  | pop => exact inv_pop h hstep
  | addDirEntry new_name => exact inv_addDirEntry h hstep
  | copied r => exact inv_copied h hstep
  | size => exact inv_size h hstep
  | cleanup => exact inv_cleanup h hok hstep
  | endSession => exact inv_endSession h hstep

/-! ## What comes after a step that does not meet the condition -/

/-- The run can go on to where the pass copies the entry. -/
def Reaches (D : DirectorySet) (e : Entry) (s : State) : Prop :=
  ∃ bs t, run (step D) s bs = some t ∧ t.pc = .copying e ∧ t.index = s.index

variable {e fname : Entry} {rest : List (Option Entry)} {l : List Entry}

theorem Reaches.of_step (h : Reaches D e s') (a : Action) (hstep : step D s a = some s')
    (hindex : s'.index = s.index) : Reaches D e s := by
  obtain ⟨bs, t, hrun, hpc, ht⟩ := h
  exact ⟨a :: bs, t, run_cons_some.mpr ⟨s', hstep, hrun⟩, hpc, ht.trans hindex⟩

theorem reaches_pop (hpc : s.pc = .pop fname) (htodo : s.todo = some fname :: rest)
    (h : Reaches D e { s with todo := rest, pc := .copying fname }) : Reaches D e s := by
  have hstep : stepPop s = some { s with todo := rest, pc := .copying fname } := by
    simp [stepPop, hpc, htodo]
  exact h.of_step .pop hstep rfl

theorem reaches_poll (hpc : s.pc = .poll fname) (h : Reaches D e { s with pc := .pop fname }) :
    Reaches D e s := by
  have hstep : stepPoll s 0 = some { s with pc := .pop fname } := by
    simp [stepPoll, hpc]
  exact h.of_step (.poll 0) hstep rfl

theorem reaches_front (hpc : s.pc = .front) (htodo : s.todo = some fname :: rest)
    (h : Reaches D e { s with pc := .poll fname }) : Reaches D e s := by
  have hstep : stepFront s = some { s with pc := .poll fname } := by
    simp [stepFront, hpc, htodo]
  exact h.of_step .front hstep rfl

/-- The entry at the front is taken. -/
theorem reaches_taken {n_known : Nat} (hpc : s.pc = .loop n_known) (hn : n_known ≠ 0)
    (henabled : s.copyEnabled = true) (htodo : s.todo = some fname :: rest)
    (h : Reaches D e { s with todo := rest, pc := .copying fname }) : Reaches D e s := by
  have hstep : stepLoop s = some { s with pc := .front } := by
    simp [stepLoop, hpc, hn, henabled]
  have hfront : Reaches D e { s with pc := .front } :=
    reaches_front rfl htodo (reaches_poll rfl (reaches_pop rfl htodo h))
  exact hfront.of_step .loop hstep rfl

theorem reaches_size (hpc : s.pc = .size) (h : Reaches D e { s with pc := .loop s.todo.length }) :
    Reaches D e s := by
  have hstep : stepSize s = some { s with pc := .loop s.todo.length } := by
    simp [stepSize, hpc]
  exact h.of_step .size hstep rfl

/-- Without errors an entry of the list has its turn. -/
theorem reaches_loop {n_known : Nat} (hpc : s.pc = .loop n_known) (hn : n_known ≠ 0)
    (henabled : s.copyEnabled = true) (htodo : s.todo = l.map some ++ some e :: rest) :
    Reaches D e s := by
  induction l generalizing s n_known with
  | nil => exact reaches_taken hpc hn henabled htodo ⟨[], _, rfl, rfl, rfl⟩
  | cons fname l ih =>
    refine reaches_taken hpc hn henabled htodo ?_
    let s₁ : State := { s with todo := l.map some ++ some e :: rest, pc := .copying fname }
    let s₂ : State := { s₁ with freed := s₁.freed ++ [fname.id], pc := .size }
    have hcopied : step D s₁ (.copied 0) = some s₂ := rfl
    have hlength : s₂.todo.length ≠ 0 := by simp [s₂, s₁]
    have hloop : Reaches D e { s₂ with pc := .loop s₂.todo.length } := ih rfl hlength henabled rfl
    have hsize : Reaches D e s₂ := reaches_size rfl hloop
    exact hsize.of_step (.copied 0) hcopied rfl

theorem reaches_copying (hpc : s.pc = .copying fname) (henabled : s.copyEnabled = true)
    (htodo : s.todo = l.map some ++ [some e]) : Reaches D e s := by
  let s₁ : State := { s with freed := s.freed ++ [fname.id], pc := .size }
  have hcopied : stepCopied s 0 = some s₁ := by simp [stepCopied, hpc, s₁]
  have hlength : s₁.todo.length ≠ 0 := by simp [s₁, htodo]
  have hsize : Reaches D e s₁ := reaches_size rfl (reaches_loop rfl hlength henabled htodo)
  exact hsize.of_step (.copied 0) hcopied rfl

/-- Wherever the pass is, an entry of another directory that was added at the end has its
turn. -/
theorem reaches_added (hready : Ready s) (htaking : s.taking D = true)
    (henabled : s.copyEnabled = true) (htodo : s.todo = l.map some ++ [some e])
    (hother : e.directory ≠ s.index) : Reaches D e s := by
  -- the first entry is not the one that was added
  have hfirst : ∀ fname rest, s.todo = some fname :: rest → fname.directory = s.index →
      ∃ l', rest = List.map some l' ++ [some e] := by
    intro fname rest hrest hdirectory
    rw [htodo] at hrest
    cases l with
    | nil =>
      cases hrest
      exact absurd hdirectory hother
    | cons x l =>
      cases hrest
      exact ⟨l, rfl⟩
  rw [Ready] at hready
  rw [State.taking] at htaking
  cases hpc : s.pc with
  | next =>
    rw [hpc] at htaking
    have hlt : s.index < D.dirs.length := by simpa using htaking
    let s₁ : State := s.push ['.'] s.index
    have hstep : stepNext D s = some { s₁ with pc := .loop s₁.todo.length } := by
      simp [stepNext, hpc, hlt, s₁]
    have htodo₁ : s₁.todo = l.map some ++ some e :: [some ⟨s.pushed, ['.'], s.index⟩] := by
      simp [s₁, State.push, htodo]
    have hlength : s₁.todo.length ≠ 0 := by simp [htodo₁]
    have hloop : Reaches D e { s₁ with pc := .loop s₁.todo.length } :=
      reaches_loop rfl hlength henabled htodo₁
    exact hloop.of_step .next hstep rfl
  | loop n_known =>
    rw [hpc] at htaking
    exact reaches_loop hpc (by simpa using htaking) henabled htodo
  | front =>
    rw [hpc] at hready
    obtain ⟨fname, rest, hrest, hdirectory⟩ := hready
    obtain ⟨l', hl'⟩ := hfirst fname rest hrest hdirectory
    exact reaches_front hpc hrest
      (reaches_poll rfl (reaches_pop rfl hrest (reaches_copying rfl henabled hl')))
  | poll fname =>
    rw [hpc] at hready
    obtain ⟨rest, hrest, hdirectory⟩ := hready
    obtain ⟨l', hl'⟩ := hfirst fname rest hrest hdirectory
    exact reaches_poll hpc (reaches_pop rfl hrest (reaches_copying rfl henabled hl'))
  | pop fname =>
    rw [hpc] at hready
    obtain ⟨rest, hrest, hdirectory⟩ := hready
    obtain ⟨l', hl'⟩ := hfirst fname rest hrest hdirectory
    exact reaches_pop hpc hrest (reaches_copying rfl henabled hl')
  | copying fname => exact reaches_copying hpc henabled htodo
  | size =>
    exact reaches_size hpc (reaches_loop rfl (by simp [htodo]) henabled htodo)
  | _ =>
    rw [hpc] at htaking
    cases htaking

theorem exists_map_some {todo : List (Option Entry)} (h : none ∉ todo) :
    ∃ l : List Entry, todo = l.map some := by
  induction todo with
  | nil => exact ⟨[], rfl⟩
  | cons o todo ih =>
    obtain ⟨l, rfl⟩ := ih fun hmem => h (List.mem_cons_of_mem o hmem)
    cases o with
    | none => exact absurd List.mem_cons_self h
    | some e => exact ⟨e :: l, rfl⟩

/-- An entry of another directory that is added while it may still be taken is copied into the
directory of the pass, if nothing fails. -/
theorem exists_run_misplaced {full_new_path : Path} (h : Inv D s)
    (hbad : ¬ TodoOk D s (.addToCopyTodoList full_new_path))
    (hstep : stepAdd D s full_new_path = some s') :
    ∃ bs t, run (step D) s' bs = some t ∧ ¬ Survives D t := by
  simp only [TodoOk, Classical.not_imp] at hbad
  obtain ⟨htaking, henabled, hplace⟩ := hbad
  rw [stepAdd] at hstep
  split at hstep
  · cases hstep
  · rename_i hpc
    split at hstep
    · rename_i directory dest hdirectory hdest
      cases hstep
      have hother : directory ≠ s.index := by
        intro heq
        rw [hdirectory, heq] at hplace
        exact hplace rfl
      obtain ⟨l, hl⟩ := exists_map_some (h.filled htaking)
      have htodo : (s.push dest directory).todo =
        l.map some ++ [some ⟨s.pushed, dest, directory⟩] := by
        rw [State.push, hl]
      have hready : Ready (s.push dest directory) :=
        ready_push h.ready (fun hended => hpc (Or.inl hended)) dest directory
      obtain ⟨bs, t, hrun, htpc, hindex⟩ :=
        reaches_added (D := D) hready htaking henabled htodo hother
      refine ⟨bs, t, hrun, fun hsurvives => hother ?_⟩
      exact (hsurvives.resolved _ htpc).trans hindex
    · cases hstep

theorem exists_run_not_survives (h : Inv D s) (hbad : ¬ TodoOk D s a)
    (hstep : step D s a = some s') : ∃ bs t, run (step D) s' bs = some t ∧ ¬ Survives D t := by
  cases a with
  | addToCopyTodoList full_new_path => exact exists_run_misplaced h hbad hstep
  | cleanup =>
    simp only [TodoOk, Classical.not_imp] at hbad
    obtain ⟨hpc, hlt, htodo⟩ := hbad
    refine ⟨[], s', rfl, fun hsurvives => ?_⟩
    change stepCleanup s = some s' at hstep
    simp only [stepCleanup, hpc, ne_eq, not_true_eq_false, if_false] at hstep
    cases hstep
    refine hsurvives.clean rfl hlt ?_
    obtain ⟨o, ho⟩ := List.exists_mem_of_ne_nil s.todo htodo
    exact List.mem_map.mpr ⟨o, ho, rfl⟩
  | _ => exact absurd trivial hbad

/-! ## The main result -/

/-- In every run whose steps meet the condition, of every directory set, the list survives;
and after the first step that does not meet it the run can go on to where it does not. -/
theorem todo_survives (D : DirectorySet) (hinit : Initial s₀) {as : List Action}
    (hok : RunOk (step D) (TodoOk D) s₀ as) (hrun : run (step D) s₀ as = some s) :
    Survives D s ∧ ∀ a s', ¬ TodoOk D s a → step D s a = some s' →
      ∃ bs t, run (step D) s' bs = some t ∧ ¬ Survives D t := by
  have hinv : Inv D s :=
    run_invariant (fun _ _ _ hs ha hstep => inv_step hs ha hstep) (inv_initial hinit) hok hrun
  exact ⟨hinv.survives, fun a s' hbad hstep => exists_run_not_survives hinv hbad hstep⟩

end

instance decidableTodoOk (D : DirectorySet) (s : State) (a : Action) :
    Decidable (TodoOk D s a) := by
  apply @Action.casesOn (fun a => Decidable (TodoOk D s a)) a
  case addToCopyTodoList =>
    intro full_new_path
    exact inferInstanceAs (Decidable (s.taking D = true → s.copyEnabled = true →
      D.findIndexMatchingPrefix full_new_path = some s.index))
  case cleanup =>
    exact inferInstanceAs (Decidable (s.pc = .out 0 → s.index + 1 < D.dirs.length → s.todo = []))
  all_goals
    intros
    exact isTrue trivial

def start : State := ⟨[], 0, .next, true, 0, []⟩

theorem initial_start : Initial start := ⟨rfl, rfl, Or.inl rfl, rfl, rfl⟩

def twoSources : DirectorySet :=
  ⟨[(['/', 's'], ['/', 'd']), (['/', 't'], ['/', 'e'])], fun _ => false⟩

/-- A file of the first directory is renamed in its pass, and one of the second after the last
pass. -/
def renamedInPlace : List Action :=
  [.next, .loop, .front, .poll 0, .pop, .addDirEntry ['/', 'a'],
    .addToCopyTodoList ['/', 's', '/', 'b'], .copied 0, .size, .loop, .front, .poll 0, .pop,
    .copied 0, .size, .loop, .front, .poll 0, .pop, .copied 0, .size, .loop, .cleanup,
    .next, .loop, .front, .poll 0, .pop, .copied 0, .size, .loop, .cleanup, .next,
    .addToCopyTodoList ['/', 't', '/', 'b'], .endSession]

theorem todo_survives_renamedInPlace :
    ∃ s, run (step twoSources) start renamedInPlace = some s ∧ s.pc = .ended ∧ s.pushed = 5 ∧
      Survives twoSources s := by
  have hok : RunOk (step twoSources) (TodoOk twoSources) start renamedInPlace := by decide +kernel
  have hrun : ∃ s, run (step twoSources) start renamedInPlace = some s ∧ s.pc = .ended ∧
      s.pushed = 5 := ⟨_, rfl, rfl, rfl⟩
  obtain ⟨s, hrun, hpc, hpushed⟩ := hrun
  exact ⟨s, hrun, hpc, hpushed, (todo_survives twoSources initial_start hok hrun).1⟩

/-- A file of the first directory is renamed between the last look at the list in its pass and
the cleanup. -/
def renamedLate : List Action :=
  [.next, .loop, .front, .poll 0, .pop, .copied 0, .size, .loop,
    .addToCopyTodoList ['/', 's', '/', 'b'], .cleanup, .next, .loop, .front]

/-- The pass of the second directory takes a null entry. -/
theorem not_todo_survives_renamedLate :
    ¬ ∀ D s₀ as s, Initial s₀ → run (step D) s₀ as = some s → Survives D s := by
  intro h
  have hrun : ∃ s, run (step twoSources) start renamedLate = some s ∧ s.pc = .crashed :=
    ⟨_, rfl, rfl⟩
  obtain ⟨s, hrun, hpc⟩ := hrun
  exact (h twoSources start renamedLate s initial_start hrun).taken hpc

end TokuBackup.TodoList
