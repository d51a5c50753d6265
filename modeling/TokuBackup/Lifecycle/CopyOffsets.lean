import TokuBackup.DoBackup.SourceFd
import TokuBackup.Lifecycle.Counts

/-!
# Where the copier writes

The life of the files with the copy loop in it: each pass of `copy_file_data` reads the source
from its own fd and writes to the fd of the file's destination, whose offset is what earlier
writes have left. `copies_in_place` says in which runs the two offsets and
`m_total_written_this_file` agree whenever `copy_file_range` is entered or left, so that every
byte is written where it was read.
-/

namespace TokuBackup.Lifecycle.CopyOffsets

open Kernel Table Lib
open DoBackup.SourceFd (SourceInfo)

/-! ## State -/

/-- The fd of the source that the copier opened last. -/
structure Handle where
  fd : Nat
  offset : Nat
  deriving DecidableEq

/-- Where a pass is; in `copy_file_range` with the destination and the fd of the source. -/
inductive Phase where
  /-- The next range may begin. -/
  | between
  | entry (dest fd : Nat)
  /-- Of the `n_read` bytes that were read from `start` on, `n_wrote` are written. -/
  | writing (dest fd : Nat) (start : Option Nat) (n_read n_wrote : Nat)
  | exit (dest fd : Nat) (more : Bool)
  /-- The range could not be read. -/
  | ended
  deriving DecidableEq

/-- `copy_file_range` is entered or left. -/
def Phase.boundary : Phase → Option (Nat × Nat)
  | .entry dest fd => some (dest, fd)
  | .exit dest fd _ => some (dest, fd)
  | _ => none

/-- A pass of `copy_file_data`. -/
structure Pass where
  source : SourceInfo
  /-- The destination at the beginning. -/
  dest : Option Nat
  /-- `m_total_written_this_file` -/
  total : Nat
  phase : Phase

/-- A `write` of the copier. -/
structure Write where
  dest : Nat
  /-- Where the bytes were read. -/
  source : Option Nat
  target : Nat
  count : Nat
  deriving DecidableEq

structure State where
  base : Lifecycle.State
  handle : Option Handle
  pass : Option Pass
  /-- The offset of the fd of each destination. -/
  offsets : Nat → Nat
  writes : List Write

/-! ## Steps -/

inductive Action where
  | base (a : Lifecycle.Action)
  /-- `copy_file_data` is called. -/
  | start (source : SourceInfo)
  /-- A range begins: the mode that the file has, and what opening the source again comes to
  if it is needed: the fd, and whether `lseek` succeeds. -/
  | range (direct : Bool) (again : Option (Nat × Bool))
  /-- `none` when the `read` fails. -/
  | read (n_read : Option Nat)
  | write (n : Nat)
  /-- The poll callback aborts, or the `write` fails. -/
  | abort
  | finish (ok : Bool)

/-- The steps that the pass refines. -/
def ofPass : Lifecycle.Action → Bool
  | .copierUse => true
  | .copierDone _ => true
  | _ => false

/-- The file that `copy_file_data` copies. -/
def State.file (s : State) : Option Ptr :=
  match s.base.backup with
  | .copying c =>
    match c.pc with
    | .copying _ => some c.file
    | _ => none
  | _ => none

/-- `copy_file_range` is called with `fd`. -/
def State.enter (s : State) (file : Ptr) (p : Pass) (fd : Nat) : State :=
  match s.base.destination file with
  | some dest => { s with pass := some { p with phase := .entry dest fd } }
  | none =>
    { s with
      base := { s.base with fault := some .pointer }
      pass := some { p with phase := .ended } }

/-- `open_and_lock_file_then_copy_range` until it calls `copy_file_range`. -/
def State.range (s : State) (file : Ptr) (p : Pass) (direct : Bool) (again : Option (Nat × Bool)) :
    State :=
  if direct ≠ p.source.direct then
    match again with
    | none =>
      { s with
        handle := s.handle.filter (·.fd ≠ p.source.fd)
        pass := some { p with phase := .ended } }
    | some (fd, sought) =>
      if sought then { s with handle := some ⟨fd, p.total⟩ }.enter file p fd
      else { s with handle := some ⟨fd, 0⟩, pass := some { p with phase := .ended } }
  else s.enter file p p.source.fd

/-- `read` in `copy_file_range`. -/
def State.read (s : State) (p : Pass) (dest fd : Nat) : Option Nat → State
  | some (n + 1) =>
    { s with
      handle :=
        s.handle.map fun h => if h.fd = fd then { h with offset := h.offset + (n + 1) } else h
      pass := some { p with
        phase := .writing dest fd ((s.handle.filter (·.fd = fd)).map Handle.offset) (n + 1) 0 } }
  | _ => { s with pass := some { p with phase := .exit dest fd false } }

/-- `n` bytes are written. -/
def State.write (s : State) (p : Pass) (dest fd : Nat) (start : Option Nat)
    (n_read n_wrote n : Nat) :
    State :=
  { s with
    offsets := Function.update s.offsets dest (s.offsets dest + n)
    writes := s.writes ++ [⟨dest, start.map (· + n_wrote), s.offsets dest, n⟩]
    pass := some { p with
      total := p.total + n
      phase := if n_wrote + n = n_read then .exit dest fd true
        else .writing dest fd start n_read (n_wrote + n) } }

/-- The steps of a pass. -/
def stepPass (s : State) (file : Ptr) (p : Pass) : Action → Option State
  | .range direct again =>
    match p.phase with
    | .between | .exit _ _ true => some (s.range file p direct again)
    | _ => none
  | .read n_read =>
    match p.phase with
    | .entry dest fd => some (s.read p dest fd n_read)
    | _ => none
  | .write n =>
    match p.phase with
    | .writing dest fd start n_read n_wrote =>
      if n_wrote + n ≤ n_read then some (s.write p dest fd start n_read n_wrote n) else none
    | _ => none
  | .abort =>
    match p.phase with
    | .writing dest fd _ _ _ => some { s with pass := some { p with phase := .exit dest fd false } }
    | _ => none
  | _ => none

section

variable (hash : Path → Nat)

def step (s : State) (a : Action) : Option State :=
  if s.base.fault.isSome then none
  else
    match a with
    | .base a =>
      if ofPass a then none else (Lifecycle.step hash s.base a).map fun base => { s with base }
    | .start source =>
      match s.file, s.pass with
      | some file, none =>
        some { s with
          handle := some ⟨source.fd, 0⟩
          pass := some ⟨source, s.base.destination file, 0, .between⟩ }
      | _, _ => none
    | .finish ok =>
      match s.pass with
      | some p =>
        match p.phase with
        | .between | .exit _ _ _ | .ended =>
          (Lifecycle.step hash s.base (.copierDone ok)).map fun base =>
            { s with base, pass := none }
        | _ => none
      | none => none
    | a =>
      match s.file, s.pass with
      | some file, some p => stepPass s file p a
      | _, _ => none

end

structure Initial (s : State) : Prop where
  base : Lifecycle.Initial s.base
  pass : s.pass = none
  offsets : ∀ id, s.offsets id = 0
  writes : s.writes = []

/-! ## The property -/

/-- Whenever `copy_file_range` is entered or left, the offsets of both fds are the number of
bytes that the pass has written; and every byte was written where it was read. -/
structure InPlace (s : State) : Prop where
  boundary : ∀ p dest fd, s.pass = some p → p.phase.boundary = some (dest, fd) →
    s.handle = some ⟨fd, p.total⟩ ∧ s.offsets dest = p.total
  bytes : ∀ w ∈ s.writes, w.source = some w.target

/-- No write of the copier has gone to the destination. -/
def State.Unwritten (s : State) (dest : Nat) : Prop := ∀ w ∈ s.writes, w.dest = dest → w.count = 0

/-- A pass starts on a destination that no earlier pass has written to; the file has no other
destination in a later range; a range that finds the first mode finds the first fd open; and
the bytes that a range has read are all written. -/
def FirstPass (s : State) : Action → Prop
  | .start _ => ∀ file ∈ s.file, ∀ dest ∈ s.base.destination file, s.Unwritten dest
  | .range direct _ => ∀ file ∈ s.file, ∀ p ∈ s.pass,
      (∀ dest ∈ s.base.destination file, p.dest = some dest) ∧
        (direct = p.source.direct → s.handle.map Handle.fd = some p.source.fd)
  | .abort => False
  | _ => True

/-! ## The invariant -/

/-- What holds of a pass: its destination has its offset, and so has the source in between;
in a range they differ by the bytes that are still to be written. -/
structure Sound (s : State) (p : Pass) : Prop where
  dest : ∀ dest, p.dest = some dest → s.offsets dest = p.total
  phase : match p.phase with
    | .between => ∀ h, s.handle = some h → h.offset = p.total
    | .entry dest fd => p.dest = some dest ∧ s.handle = some ⟨fd, p.total⟩
    | .writing dest fd start n_read n_wrote => p.dest = some dest ∧
        ∃ first, start = some first ∧ first + n_wrote = p.total ∧ n_wrote ≤ n_read ∧
          s.handle = some ⟨fd, first + n_read⟩
    | .exit dest fd _ => p.dest = some dest ∧ s.handle = some ⟨fd, p.total⟩
    | .ended => True

structure Inv (s : State) : Prop where
  unwritten : ∀ id, s.Unwritten id → s.offsets id = 0
  bytes : ∀ w ∈ s.writes, w.source = some w.target
  pass : ∀ p, s.pass = some p → Sound s p

section

variable {hash : Path → Nat} {s s' s₀ : State} {p : Pass} {file : Ptr}

theorem inv_initial (h : Initial s) : Inv s := by
  refine ⟨fun id _ => h.offsets id, fun w hw => ?_, fun p hp => ?_⟩
  · rw [h.writes] at hw
    cases hw
  · rw [h.pass] at hp
    cases hp

/-- A step that writes nothing. -/
theorem Inv.keep (h : Inv s) (hoffsets : s'.offsets = s.offsets) (hwrites : s'.writes = s.writes)
    (hpass : ∀ p, s'.pass = some p → Sound s' p) : Inv s' := by
  refine ⟨fun id hid => ?_, fun w hw => ?_, hpass⟩
  · rw [hoffsets]
    refine h.unwritten id fun w hw => hid w ?_
    rw [hwrites]
    exact hw
  · rw [hwrites] at hw
    exact h.bytes w hw

/-- A step of the life of the files. -/
theorem Inv.base (h : Inv s) (base : Lifecycle.State) : Inv { s with base } :=
  h.keep rfl rfl fun p hp => ⟨(h.pass p hp).dest, (h.pass p hp).phase⟩

/-- The source fd is at the right place when `copy_file_range` is called. -/
theorem Inv.enter (h : Inv s) (hp : Sound s p)
    (hfile : ∀ dest, s.base.destination file = some dest → p.dest = some dest) (fd : Nat) :
    Inv ({ s with handle := some ⟨fd, p.total⟩ }.enter file p fd) := by
  rw [State.enter]
  split
  · rename_i dest hd
    refine h.keep rfl rfl fun p' hp' => ?_
    cases hp'
    exact ⟨hp.dest, hfile dest hd, rfl⟩
  · refine h.keep rfl rfl fun p' hp' => ?_
    cases hp'
    exact ⟨hp.dest, trivial⟩

theorem Inv.range (h : Inv s) (hp : Sound s p) (direct : Bool) (again : Option (Nat × Bool))
    (hphase : p.phase = .between ∨ ∃ dest fd, p.phase = .exit dest fd true)
    (hfile : ∀ dest, s.base.destination file = some dest → p.dest = some dest)
    (hopen : direct = p.source.direct → s.handle.map Handle.fd = some p.source.fd) :
    Inv (s.range file p direct again) := by
  have hoffset : ∀ h, s.handle = some h → h.offset = p.total := by
    have hsound := hp.phase
    rcases hphase with hphase | ⟨dest, fd, hphase⟩
    · rw [hphase] at hsound
      exact hsound
    · rw [hphase] at hsound
      intro h hh
      rw [hsound.2] at hh
      cases hh
      rfl
  have hended : ∀ handle, Inv { s with handle, pass := some { p with phase := .ended } } := by
    intro handle
    refine h.keep rfl rfl fun p' hp' => ?_
    cases hp'
    exact ⟨hp.dest, trivial⟩
  unfold State.range
  split
  · split
    · exact hended _
    · split
      · exact h.enter hp hfile _
      · exact hended _
  · rename_i hsame
    obtain ⟨handle, hh, hfd⟩ := Option.map_eq_some_iff.mp (hopen (not_not.mp hsame))
    have hplace : s.handle = some ⟨p.source.fd, p.total⟩ := by
      rw [hh, ← hfd, ← hoffset handle hh]
    have henter := h.enter hp hfile p.source.fd
    rw [← hplace] at henter
    exact henter

theorem Inv.read (h : Inv s) (hp : Sound s p) {dest fd : Nat} (hphase : p.phase = .entry dest fd)
    (n_read : Option Nat) : Inv (s.read p dest fd n_read) := by
  have hsound := hp.phase
  rw [hphase] at hsound
  obtain ⟨hdest, hhandle⟩ := hsound
  have hexit : Inv { s with pass := some { p with phase := .exit dest fd false } } := by
    refine h.keep rfl rfl fun p' hp' => ?_
    cases hp'
    exact ⟨hp.dest, hdest, hhandle⟩
  unfold State.read
  split
  · refine h.keep rfl rfl fun p' hp' => ?_
    cases hp'
    refine ⟨hp.dest, hdest, p.total, ?_, Nat.add_zero _, Nat.zero_le _, ?_⟩
    · rw [hhandle, Option.filter_some_pos (by simp), Option.map_some]
    · simp only [hhandle, Option.map_some, if_true]
  · exact hexit

theorem Inv.write (h : Inv s) (hp : Sound s p) {dest fd : Nat} {start : Option Nat}
    {n_read n_wrote n : Nat} (hphase : p.phase = .writing dest fd start n_read n_wrote)
    (hn : n_wrote + n ≤ n_read) : Inv (s.write p dest fd start n_read n_wrote n) := by
  have hsound := hp.phase
  rw [hphase] at hsound
  obtain ⟨hdest, first, rfl, htotal, hle, hhandle⟩ := hsound
  have hoffset := hp.dest dest hdest
  refine ⟨fun id hid => ?_, fun w hw => ?_, fun p' hp' => ?_⟩
  · change Function.update s.offsets dest (s.offsets dest + n) id = 0
    have hold : s.Unwritten id := fun w hw => hid w (List.mem_append_left _ hw)
    by_cases hdid : id = dest
    · subst hdid
      have hzero : n = 0 :=
        hid ⟨id, _, _, n⟩ (List.mem_append_right _ (List.mem_singleton_self _)) rfl
      rw [Function.update_self, h.unwritten id hold, hzero]
    · rw [Function.update_of_ne hdid]
      exact h.unwritten id hold
  · rcases List.mem_append.mp hw with hw | hw
    · exact h.bytes w hw
    · rw [List.mem_singleton.mp hw, Option.map_some, htotal, hoffset]
  · cases hp'
    refine ⟨fun d hd => ?_, ?_⟩
    · obtain rfl : dest = d := Option.some.inj (hdest.symm.trans hd)
      change Function.update s.offsets dest (s.offsets dest + n) dest = p.total + n
      rw [Function.update_self, hoffset]
    · dsimp only
      split
      · rename_i d heq
        split at heq <;> cases heq
      · rename_i d f heq
        split at heq <;> cases heq
      · rename_i d f st nr nw heq
        split at heq
        · cases heq
        · cases heq
          exact ⟨hdest, first, rfl, by omega, hn, hhandle⟩
      · rename_i d f more heq
        split at heq
        · rename_i hlast
          cases heq
          refine ⟨hdest, ?_⟩
          change s.handle = some ⟨fd, p.total + n⟩
          rw [hhandle]
          congr 2
          omega
        · cases heq
      · trivial

theorem inv_stepPass (h : Inv s) (hfile : s.file = some file) (hpass : s.pass = some p) {a : Action}
    (hok : FirstPass s a) (hstep : stepPass s file p a = some s') : Inv s' := by
  have hp := h.pass p hpass
  cases a with
  | range direct again =>
    obtain ⟨hdest, hopen⟩ := hok file hfile p hpass
    simp only [stepPass] at hstep
    split at hstep
    · rename_i hphase
      cases hstep
      exact h.range hp direct again (Or.inl hphase) hdest hopen
    · rename_i dest fd hphase
      cases hstep
      exact h.range hp direct again (Or.inr ⟨dest, fd, hphase⟩) hdest hopen
    · cases hstep
  | read n_read =>
    simp only [stepPass] at hstep
    split at hstep
    · rename_i hphase
      cases hstep
      exact h.read hp hphase n_read
    · cases hstep
  | write n =>
    simp only [stepPass] at hstep
    split at hstep
    · rename_i hphase
      split at hstep
      · rename_i hn
        cases hstep
        exact h.write hp hphase hn
      · cases hstep
    · cases hstep
  | abort => exact hok.elim
  | _ => cases hstep

theorem inv_step (h : Inv s) {a : Action} (hok : FirstPass s a) (hstep : step hash s a = some s') :
    Inv s' := by
  unfold step at hstep
  split at hstep
  · cases hstep
  · split at hstep
    · split at hstep
      · cases hstep
      · obtain ⟨base, _, rfl⟩ := Option.map_eq_some_iff.mp hstep
        exact h.base base
    · split at hstep
      · rename_i source file hfile hpass
        cases hstep
        refine h.keep rfl rfl fun p hp => ?_
        cases hp
        refine ⟨fun dest hdest => ?_, fun handle hh => ?_⟩
        · exact h.unwritten dest (hok _ hfile dest hdest)
        · cases hh
          rfl
      · cases hstep
    · rename_i ok
      have hfinish : ((Lifecycle.step hash s.base (.copierDone ok)).map fun base =>
          { s with base, pass := none }) = some s' → Inv s' := by
        intro hdone
        obtain ⟨base, _, rfl⟩ := Option.map_eq_some_iff.mp hdone
        exact h.keep rfl rfl fun p hp => by cases hp
      split at hstep
      · split at hstep
        · exact hfinish hstep
        · exact hfinish hstep
        · exact hfinish hstep
        · cases hstep
      · cases hstep
    · split at hstep
      · rename_i hfile hpass
        exact inv_stepPass h hfile hpass hok hstep
      · cases hstep

theorem Inv.inPlace (h : Inv s) : InPlace s := by
  refine ⟨fun p dest fd hp hboundary => ?_, h.bytes⟩
  obtain ⟨hdest, hphase⟩ := h.pass p hp
  cases hat : p.phase with
  | entry d f =>
    rw [hat] at hboundary hphase
    cases hboundary
    exact ⟨hphase.2, hdest _ hphase.1⟩
  | exit d f more =>
    rw [hat] at hboundary hphase
    cases hboundary
    exact ⟨hphase.2, hdest _ hphase.1⟩
  | _ =>
    rw [hat] at hboundary
    cases hboundary

/-- In every run in which the passes start on destinations that no pass has written to, the
copier writes every byte where it read it. -/
theorem copies_in_place (hash : Path → Nat) (hinit : Initial s₀) {as : List Action}
    (hok : RunOk (step hash) FirstPass s₀ as) (hrun : run (step hash) s₀ as = some s) : InPlace s :=
  (run_invariant (fun _ _ _ h hok hstep => inv_step h hok hstep) (inv_initial hinit)
    hok hrun).inPlace

end

/-! ## Two passes over one file -/

def start : State := ⟨Lifecycle.start true, none, none, fun _ => 0, []⟩

theorem initial_start : Initial start := ⟨Lifecycle.initial_start true, rfl, fun _ => rfl, rfl⟩

/-- The application opens the file `/s/a` during a session, and the copier copies its two
bytes. -/
def copyOpenFile : List Action :=
  [.base (.startSession slashS), .base (.prepareNext true true),
    .base (.openReal 0 ['/', 's', '/', 'a'] false), .base (.openAttach 0), .base (.openPublish 0),
    .base (.openCapture 0 true true),
    .base (.copierStart 0 ['a']), .base (.copierOpen true), .base (.copierCreate true),
    .start ⟨5, false⟩, .range false none, .read (some 2), .write 2, .range false none,
    .read (some 0), .finish true, .base .copierUnhook, .base .copierRelease]

/-- The file is renamed to `/s/b`, where the copier finds it and copies it once more. -/
def copyRenamedFile : List Action :=
  copyOpenFile ++ [.base (.renameStart ['/', 's', '/', 'a'] ['/', 's', '/', 'b']),
    .base (.renameReal true), .base (.renameCapture true true false),
    .base (.copierStart 0 ['b']), .base (.copierOpen true), .base (.copierCreate true),
    .start ⟨5, false⟩, .range false none]

instance decidableFirstPass (s : State) (a : Action) : Decidable (FirstPass s a) := by
  unfold FirstPass State.Unwritten
  cases a with
  | start source => infer_instance
  | range direct again => infer_instance
  | abort => exact isFalse id
  | _ => exact isTrue trivial

theorem copies_in_place_copyOpenFile :
    ∃ s, run (step List.length) start copyOpenFile = some s ∧ s.writes ≠ [] ∧ InPlace s := by
  have hok : RunOk (step List.length) FirstPass start copyOpenFile := by decide +kernel
  have hrun : ∃ s, run (step List.length) start copyOpenFile = some s ∧
      s.writes = [⟨0, some 0, 0, 2⟩] := ⟨_, rfl, rfl⟩
  obtain ⟨s, hrun, hwrites⟩ := hrun
  refine ⟨s, hrun, ?_, copies_in_place List.length initial_start hok hrun⟩
  rw [hwrites]
  exact List.cons_ne_nil _ _

/-- The second pass begins where the first one left the destination. -/
theorem not_copies_in_place_copyRenamedFile :
    ¬ ∀ hash s₀ as s, Initial s₀ → run (step hash) s₀ as = some s → InPlace s := by
  intro hall
  have hrun : ∃ s, run (step List.length) start copyRenamedFile = some s ∧
      (∃ p, s.pass = some p ∧ p.phase = .entry 0 5 ∧ p.total = 0) ∧ s.offsets 0 = 2 :=
    ⟨_, rfl, ⟨_, rfl, rfl, rfl⟩, rfl⟩
  obtain ⟨s, hrun, ⟨p, hpass, hphase, htotal⟩, hoffset⟩ := hrun
  have hplace := (hall _ _ _ s initial_start hrun).boundary p 0 5 hpass (by rw [hphase]; rfl)
  rw [hoffset, htotal] at hplace
  cases hplace.2

end TokuBackup.Lifecycle.CopyOffsets
