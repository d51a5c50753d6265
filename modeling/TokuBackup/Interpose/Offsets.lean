import TokuBackup.Interpose.Model
import TokuBackup.Lib.Machine

/-!
# The tracked offset

A description shadows the file offset that the kernel holds for its fd. Any number of threads
call `read`, `write`, `pwrite` and `lseek`, one operation at a time, and the files grow and
shrink through others as well. The kernel writes at its offset, or at the end of the file when
the fd is open with `O_APPEND`, which holds for `pwrite` as well.

`offsets_tracked` says that the two offsets are the same whenever the description is not locked,
and that captured writes go where the real ones went, in all runs in which `lseek` succeeds and
an appending write finds the end of the file where the description has its offset. The monitor
`offsetMonitor` checks one call; the invariant `Inv` lifts it to all threads.
-/

namespace TokuBackup.Interpose.Offsets

open Kernel Table Lib Prog
open DoBackup (Errno)

/-! ## What a call does with the offset -/

/-- How far the description is behind the kernel. -/
inductive Pending where
  | settled
  /-- The kernel's offset has moved on by `n`. -/
  | moved (n : Int)
  /-- The kernel's offset is `v`. -/
  | sought (v : Int)
  deriving DecidableEq

/-- Where a call stands. -/
structure Stage where
  /-- The fd whose description is locked. -/
  held : Option Nat
  pending : Pending
  /-- The fd that has no description. -/
  untracked : Option Nat
  /-- The description's offset, since it was locked. -/
  start : Option Int
  /-- Where the next captured bytes belong. -/
  position : Option Int

/-- The call has just begun. -/
def Stage.fresh : Stage := ⟨none, .settled, none, none, none⟩

/-- The call may move the kernel's offset. -/
def Stage.mayMove (m : Stage) (fd : Nat) : Prop :=
  (m.held = some fd ∧ m.pending = .settled) ∨ (m.untracked = some fd ∧ m.held = none)

/-- What moves the offset happens under the description's lock, with its offset read before a
write; and before it is unlocked the description has followed. -/
def offsetMonitor : Monitor Op.Answer Stage where
  permits
    | .lock (.description _), m => m.held = none
    | .unlock (.description fd), m => m.held = some fd ∧ m.pending = .settled
    | .real (.read fd _), m => m.mayMove fd
    | .real (.write fd _), m => m.mayMove fd ∧ (m.untracked = some fd ∨ m.start.isSome)
    | .real (.lseek fd _ _), m => m.mayMove fd
    | .getOffset fd, m => m.held = some fd
    | .incrementOffset fd n, m => m.held = some fd ∧ m.pending = .moved n
    | .seekDescription fd v, m => m.held = some fd ∧ m.pending = .sought v
    | .backup (.pwrite _ _ offset), m => m.position = some offset
    | _, _ => True
  next
    | .mapGet fd, m, (r : Option Ptr) =>
      match r with
      | none => { m with untracked := some fd }
      | some _ => m
    | .lock (.description fd), m, _ =>
      { m with held := some fd, pending := .settled, start := none }
    | .unlock (.description _), m, _ => { m with held := none }
    | .real (.read _ _), m, (r : Except Errno Int) =>
      { m with pending := if 0 < value r then .moved (value r) else .settled }
    | .real (.write _ _), m, (r : Except Errno Int) =>
      { m with
        pending := if 0 < value r then .moved (value r) else .settled
        position := m.start }
    | .real (.pwrite _ _ offset), m, _ => { m with position := some offset }
    | .real (.lseek _ _ _), m, (r : Except Errno Int) => { m with pending := .sought (value r) }
    | .getOffset _, m, (p : Int) => { m with start := some p }
    | .incrementOffset _ _, m, _ => { m with pending := .settled, start := none }
    | .seekDescription _ _, m, _ => { m with pending := .settled, start := none }
    | .backup (.pwrite _ _ offset), m, (r : Except Errno Nat) =>
      match r with
      | .ok n => { m with position := some (offset + n) }
      | .error _ => m
    | _, m, _ => m

/-- An operation that has nothing to do with the offset. -/
def plain : Op → Bool
  | .mapGet _ => false
  | .lock (.description _) => false
  | .unlock (.description _) => false
  | .real _ => false
  | .getOffset _ => false
  | .incrementOffset _ _ => false
  | .seekDescription _ _ => false
  | .backup (.pwrite _ _ _) => false
  | _ => true

section

variable {α β : Type} {m : Stage} {Q : β → Stage → Prop}

theorem plain_spec {o : Op} (h : plain o = true) (m : Stage) :
    offsetMonitor.permits o m ∧ ∀ r, offsetMonitor.next o m r = m := by
  cases o with
  | mapGet fd => cases h
  | real c => cases h
  | getOffset fd => cases h
  | incrementOffset fd n => cases h
  | seekDescription fd v => cases h
  | lock l =>
    cases l with
    | description fd => cases h
    | _ => exact ⟨trivial, fun r => rfl⟩
  | unlock l =>
    cases l with
    | description fd => cases h
    | _ => exact ⟨trivial, fun r => rfl⟩
  | backup c =>
    cases c with
    | pwrite id buf offset => cases h
    | _ => exact ⟨trivial, fun r => rfl⟩
  | _ => exact ⟨trivial, fun r => rfl⟩

theorem obeys_plain {o : Op} {f : o.Answer → CallM β} (h : plain o = true)
    (hf : ∀ r, Obeys offsetMonitor (f r) m Q) : Obeys offsetMonitor (call o >>= f) m Q := by
  obtain ⟨hp, hm⟩ := plain_spec h m
  refine obeys_call hp fun r => ?_
  rw [hm r]
  exact hf r

theorem obeys_unlockRangeReporting (file : Ptr) (r : Range) :
    Obeys offsetMonitor (unlockRangeReporting file r) m fun _ m' => m' = m := by
  unfold unlockRangeReporting
  refine obeys_plain rfl fun found => ?_
  split
  · rfl
  · exact obeys_plain rfl fun _ => rfl

/-- The captured bytes go one behind the other, from the position on. -/
theorem obeys_pwriteLoop (d : DestinationFile) (buf : List UInt8) (fuel nbyte : Nat) {offset : Int}
    (hheld : m.held = none) (hpos : m.position = some offset) :
    Obeys offsetMonitor (pwriteLoop d buf fuel nbyte offset) m fun _ m' => m'.held = none := by
  induction fuel generalizing nbyte offset m with
  | zero => exact hheld
  | succ fuel ih =>
    rw [pwriteLoop]
    split
    · exact hheld
    · refine obeys_call hpos fun (r : Except Errno Nat) => ?_
      cases r with
      | error e => exact obeys_plain rfl fun _ => hheld
      | ok wr =>
        dsimp only
        split
        · exact obeys_plain rfl fun _ => hheld
        · exact ih _ hheld rfl

theorem obeys_withSession {file : Ptr} (buf : List UInt8) {offset : Int} (hheld : m.held = none)
    (hpos : m.position = some offset) :
    Obeys offsetMonitor (withSession (captureWrite file buf offset)) m fun _ m' =>
      m'.held = none := by
  unfold withSession
  refine obeys_plain rfl fun _ => obeys_plain rfl fun D => ?_
  split
  · exact ⟨trivial, fun _ => hheld⟩
  · have hcapture : ∀ D, Obeys offsetMonitor (captureWrite file buf offset D) m
        fun _ m' => m'.held = none := by
      intro D
      unfold captureWrite
      refine obeys_plain rfl fun d => ?_
      split
      · exact hheld
      · exact (obeys_pwriteLoop _ buf _ _ hheld hpos).bind fun _ m' hm => hm
    exact (hcapture _).bind fun _ m' hm => ⟨trivial, fun _ => hm⟩

/-! ## The four calls -/

/-- After a call that has moved the kernel's offset by what it returned, the description
follows. -/
theorem obeys_follow {fd : Nat} {n : Int} {p : CallM β} (hheld : m.held = some fd)
    (hpending : m.pending = if 0 < n then .moved n else .settled)
    (hp : ∀ m', m'.position = m.position → m'.held = some fd → m'.pending = .settled →
      Obeys offsetMonitor p m' Q) :
    Obeys offsetMonitor (onlyIf (n > 0) (incrementOffset fd n) >>= fun _ => p) m Q := by
  unfold onlyIf
  by_cases hn : n > 0
  · rw [if_pos hn]
    rw [if_pos hn] at hpending
    exact obeys_call ⟨hheld, hpending⟩ fun _ => hp _ rfl hheld rfl
  · rw [if_neg hn]
    rw [if_neg hn] at hpending
    exact hp m rfl hheld hpending

theorem obeys_managerRead (fd nbyte : Nat) :
    Obeys offsetMonitor (managerRead fd nbyte) .fresh fun _ m => m.held = none := by
  unfold managerRead
  refine obeys_call trivial fun (file : Option Ptr) => ?_
  cases file with
  | none => exact obeys_call (Or.inr ⟨rfl, rfl⟩) fun _ => rfl
  | some file =>
    refine obeys_call rfl fun _ => obeys_call (Or.inl ⟨rfl, rfl⟩) fun (r : Except Errno Int) => ?_
    refine obeys_follow rfl rfl fun m _ hheld hpending => ?_
    exact obeys_call ⟨hheld, hpending⟩ fun _ => rfl

theorem obeys_managerLseek (fd : Nat) (offset : Int) (whence : Nat) :
    Obeys offsetMonitor (managerLseek fd offset whence) .fresh fun _ m => m.held = none := by
  unfold managerLseek
  refine obeys_call trivial fun (file : Option Ptr) => ?_
  cases file with
  | none => exact obeys_call (Or.inr ⟨rfl, rfl⟩) fun _ => rfl
  | some file =>
    refine obeys_call rfl fun _ => obeys_call (Or.inl ⟨rfl, rfl⟩) fun (r : Except Errno Int) => ?_
    exact obeys_call ⟨rfl, rfl⟩ fun _ => obeys_call ⟨rfl, rfl⟩ fun _ => rfl

theorem obeys_managerWrite (fd : Nat) (buf : List UInt8) :
    Obeys offsetMonitor (managerWrite fd buf) .fresh fun _ m => m.held = none := by
  unfold managerWrite
  refine obeys_call trivial fun (file : Option Ptr) => ?_
  cases file with
  | none => exact obeys_call ⟨Or.inr ⟨rfl, rfl⟩, Or.inl rfl⟩ fun _ => rfl
  | some file =>
    refine obeys_call rfl fun _ => obeys_call rfl fun (lock_start : Int) => ?_
    refine obeys_plain rfl fun _ => ?_
    refine obeys_call ⟨Or.inl ⟨rfl, rfl⟩, Or.inr rfl⟩ fun (r : Except Errno Int) => ?_
    refine obeys_follow rfl rfl fun m hpos hheld hpending => ?_
    refine obeys_call ⟨hheld, hpending⟩ fun _ => ?_
    refine Obeys.bind (obeys_withSession buf rfl hpos) fun _ m hm => ?_
    refine (obeys_unlockRangeReporting _ _).bind fun _ m' hm' => ?_
    subst hm'
    exact hm

theorem obeys_managerPwrite (fd : Nat) (buf : List UInt8) (offset : Int) :
    Obeys offsetMonitor (managerPwrite fd buf offset) .fresh fun _ m => m.held = none := by
  unfold managerPwrite
  refine obeys_call trivial fun (file : Option Ptr) => ?_
  cases file with
  | none => exact obeys_call trivial fun _ => rfl
  | some file =>
    refine obeys_plain rfl fun _ => obeys_call trivial fun (r : Except Errno Int) => ?_
    dsimp only
    split
    · refine obeys_plain rfl fun e => (obeys_unlockRangeReporting _ _).bind fun _ m hm => ?_
      refine obeys_plain rfl fun _ => ?_
      subst hm
      rfl
    · have hend : ∀ m : Stage, m.held = none →
          Obeys offsetMonitor (unlockRangeReporting file ⟨u64 offset, u64 (offset + buf.length)⟩ >>=
            fun _ => pure (value r) : CallM Int) m fun _ m' => m'.held = none := by
        intro m hm
        refine (obeys_unlockRangeReporting _ _).bind fun _ m' hm' => ?_
        subst hm'
        exact hm
      unfold onlyIf
      split
      · exact Obeys.bind (obeys_withSession buf rfl rfl) fun _ m hm => hend m hm
      · exact hend _ rfl

end

/-! ## The machine -/

structure State where
  /-- The source files of the descriptions. -/
  map : Nat → Option Ptr
  /-- The fd is open with `O_APPEND`. -/
  append : Nat → Bool
  /-- The size of the file that the fd is open on. -/
  size : Nat → Nat
  /-- The kernel's offset. -/
  kernel : Nat → Nat
  /-- `m_offset` of the description. -/
  offset : Nat → Int
  /-- The thread that has locked the description. -/
  holder : Nat → Option Nat
  /-- Where the bytes belong that the thread captures next, when its real call has written
  some. -/
  landed : Nat → Option Int
  /-- What each thread still has to do. -/
  threads : Nat → CallM Int

inductive Action where
  /-- Thread `i` makes a call. -/
  | call (i : Nat) (c : AppCall)
  /-- Thread `i` performs its next operation. -/
  | perform (i : Nat) (e : Event)
  /-- The file of the fd gets another size. -/
  | resize (fd size : Nat)

/-- The calls on an open fd that this module is about. -/
def method : AppCall → Option (CallM Int)
  | .read fd nbyte => some (managerRead fd nbyte)
  | .write fd buf => some (managerWrite fd buf)
  | .pwrite fd buf offset => some (managerPwrite fd buf offset)
  | .lseek fd offset whence => some (managerLseek fd offset whence)
  | _ => none

namespace State

/-- Where the kernel puts bytes for which the caller asks for `offset`. -/
def landing (s : State) (fd : Nat) (offset : Int) : Int :=
  if s.append fd then s.size fd else offset

/-- The answer to an operation: the manager's data are what they are, everything else as the
action says. -/
def answer (s : State) (e : Event) : e.1.Answer :=
  match e with
  | ⟨.mapGet fd, _⟩ => s.map fd
  | ⟨.getOffset fd, _⟩ => s.offset fd
  | ⟨_, r⟩ => r

/-- The operation can be performed: nobody has the lock, and the kernel can return this. -/
def admits (s : State) (e : Event) : Bool :=
  match e with
  | ⟨.lock (.description fd), _⟩ => s.holder fd = none
  | ⟨.real (.read _ nbyte), (r : Except Errno Int)⟩ => -1 ≤ value r ∧ value r ≤ nbyte
  | ⟨.real (.write _ buf), (r : Except Errno Int)⟩ => -1 ≤ value r ∧ value r ≤ buf.length
  | ⟨.real (.pwrite _ buf _), (r : Except Errno Int)⟩ => -1 ≤ value r ∧ value r ≤ buf.length
  | ⟨.real (.lseek _ _ _), (r : Except Errno Int)⟩ => match r with
    | .ok v => 0 ≤ v
    | .error _ => true
  | _ => true

/-- The bytes written at the position, if there are any; they are captured when the fd has a
description. -/
def write (s : State) (i fd : Nat) (position n : Int) : State :=
  if 0 < n then
    { s with
      size := Function.update s.size fd (max (s.size fd) (position + n).toNat)
      landed := Function.update s.landed i ((s.map fd).map fun _ => position) }
  else { s with landed := Function.update s.landed i none }

section

variable (s : State) (i fd : Nat) (position n : Int)

@[simp] theorem map_write : (s.write i fd position n).map = s.map := by
  unfold write
  split <;> rfl

@[simp] theorem holder_write : (s.write i fd position n).holder = s.holder := by
  unfold write
  split <;> rfl

@[simp] theorem offset_write : (s.write i fd position n).offset = s.offset := by
  unfold write
  split <;> rfl

@[simp] theorem kernel_write : (s.write i fd position n).kernel = s.kernel := by
  unfold write
  split <;> rfl

theorem landed_write_ne {j : Nat} (h : j ≠ i) :
    (s.write i fd position n).landed j = s.landed j := by
  unfold write
  split
  · exact Function.update_of_ne h _ _
  · exact Function.update_of_ne h _ _

variable {s i fd position n}

/-- What is captured next was written by a call on a description's fd. -/
theorem of_landed_write {q : Int} (h : (s.write i fd position n).landed i = some q) :
    (s.map fd).isSome ∧ 0 < n ∧ q = position := by
  unfold write at h
  by_cases hn : 0 < n
  · rw [if_pos hn] at h
    change Function.update s.landed i _ i = some q at h
    rw [Function.update_self] at h
    obtain ⟨file, hfile, hq⟩ := Option.map_eq_some_iff.mp h
    exact ⟨by rw [hfile]; rfl, hn, hq.symm⟩
  · rw [if_neg hn] at h
    change Function.update s.landed i none i = some q at h
    rw [Function.update_self] at h
    cases h

end

/-- What an operation of thread `i` does. -/
def after (s : State) (i : Nat) (e : Event) : State :=
  match e with
  | ⟨.real (.read fd _), (r : Except Errno Int)⟩ =>
    { s with kernel := Function.update s.kernel fd (s.kernel fd + (value r).toNat) }
  | ⟨.real (.write fd _), (r : Except Errno Int)⟩ =>
    let position := s.landing fd (s.kernel fd)
    { s.write i fd position (value r) with
      kernel :=
        if 0 < value r then Function.update s.kernel fd (position + value r).toNat else s.kernel }
  | ⟨.real (.pwrite fd _ offset), (r : Except Errno Int)⟩ =>
    s.write i fd (s.landing fd offset) (value r)
  | ⟨.real (.lseek fd _ _), (r : Except Errno Int)⟩ =>
    match r with
    | .ok v => { s with kernel := Function.update s.kernel fd v.toNat }
    | .error _ => s
  | ⟨.lock (.description fd), _⟩ => { s with holder := Function.update s.holder fd (some i) }
  | ⟨.unlock (.description fd), _⟩ => { s with holder := Function.update s.holder fd none }
  | ⟨.incrementOffset fd n, _⟩ =>
    { s with offset := Function.update s.offset fd (s.offset fd + n) }
  | ⟨.seekDescription fd v, _⟩ => { s with offset := Function.update s.offset fd v }
  | ⟨.backup (.pwrite _ _ _), (r : Except Errno Nat)⟩ =>
    match r with
    | .ok n => { s with landed := Function.update s.landed i ((s.landed i).map (· + n)) }
    | .error _ => s
  | _ => s

end State

def stepThread (s : State) (i : Nat) (e : Event) : Option State :=
  match s.threads i with
  | .step o k =>
    if h : e.1 = o then
      if s.admits e then
        some { s.after i e with threads := Function.update s.threads i (k (h ▸ s.answer e)) }
      else none
    else none
  | _ => none

def step (s : State) : Action → Option State
  | .call i c =>
    match s.threads i, method c with
    | .done _, some p =>
      some { s with
        landed := Function.update s.landed i none
        threads := Function.update s.threads i p }
    | _, _ => none
  | .perform i e => stepThread s i e
  | .resize fd size => some { s with size := Function.update s.size fd size }

/-- No call is in flight, and the fds have just been opened. -/
structure Initial (s : State) : Prop where
  offset : ∀ fd, s.offset fd = 0
  kernel : ∀ fd, s.kernel fd = 0
  holder : ∀ fd, s.holder fd = none
  landed : ∀ i, s.landed i = none
  threads : ∀ i, ∃ v, s.threads i = .done v

/-- What has to be the case for an operation, in the state before it: an appending write finds
the end of the file where it is captured, and `lseek` succeeds. -/
def Tracks (s : State) : Action → Prop
  | .perform _ ⟨.real (.write fd _), (r : Except Errno Int)⟩ =>
    (s.map fd).isSome → s.append fd = true → 0 < value r → s.size fd = s.kernel fd
  | .perform _ ⟨.real (.pwrite fd _ offset), (r : Except Errno Int)⟩ =>
    (s.map fd).isSome → s.append fd = true → 0 < value r → (s.size fd : Int) = offset
  | .perform _ ⟨.real (.lseek fd _ _), (r : Except Errno Int)⟩ =>
    (s.map fd).isSome → ∃ v, r = .ok v
  | _ => True

/-! ## The invariant -/

/-- The description's offset and the kernel's, in a stage of the thread that has the lock. -/
def Pending.Fits (offset kernel : Int) : Pending → Prop
  | .settled => offset = kernel
  | .moved n => offset + n = kernel
  | .sought v => v = kernel

/-- What the thread that has locked the description knows of the offsets. -/
def Stage.Knows (m : Stage) (offset kernel : Int) : Prop :=
  m.pending.Fits offset kernel ∧ ∀ p, m.start = some p → offset = p

/-- The stages of the threads fit what the threads still do, the locks and the offsets. -/
structure Stages (s : State) (stage : Nat → Stage) : Prop where
  obeys : ∀ i, Obeys offsetMonitor (s.threads i) (stage i) fun _ m => m.held = none
  holder : ∀ i fd, (stage i).held = some fd ↔ s.holder fd = some i
  untracked : ∀ i fd, (stage i).untracked = some fd → s.map fd = none
  knows : ∀ i fd, (s.map fd).isSome → (stage i).held = some fd →
    (stage i).Knows (s.offset fd) (s.kernel fd)
  landed : ∀ i p, s.landed i = some p → (stage i).position = some p

structure Inv (s : State) : Prop where
  stages : ∃ stage, Stages s stage
  free : ∀ fd, (s.map fd).isSome → s.holder fd = none → s.offset fd = s.kernel fd

theorem inv_initial {s : State} (h : Initial s) : Inv s := by
  refine ⟨⟨fun _ => .fresh, ?_, ?_, ?_, ?_, ?_⟩, ?_⟩
  · intro i
    obtain ⟨v, hv⟩ := h.threads i
    rw [hv]
    rfl
  · intro i fd
    rw [h.holder fd]
    exact iff_of_false (by simp [Stage.fresh]) (by simp)
  · intro i fd hfd
    cases hfd
  · intro i fd _ hheld
    cases hheld
  · intro i p hp
    rw [h.landed i] at hp
    cases hp
  · intro fd _ _
    rw [h.offset fd, h.kernel fd]
    rfl

/-- A thread changes the offsets of descriptions only that it has locked. -/
structure Moves (s t : State) (i : Nat) (m : Stage) (p : CallM Int) : Prop where
  map : t.map = s.map
  threads : t.threads = Function.update s.threads i p
  obeys : Obeys offsetMonitor p m fun _ m => m.held = none
  self : ∀ fd, m.held = some fd ↔ t.holder fd = some i
  other : ∀ j, j ≠ i → ∀ fd, t.holder fd = some j ↔ s.holder fd = some j
  untracked : ∀ fd, m.untracked = some fd → s.map fd = none
  kept : ∀ fd, (s.map fd).isSome → s.holder fd ≠ some i →
    t.offset fd = s.offset fd ∧ t.kernel fd = s.kernel fd
  knows : ∀ fd, (s.map fd).isSome → m.held = some fd → m.Knows (t.offset fd) (t.kernel fd)
  position : ∀ p, t.landed i = some p → m.position = some p
  landed : ∀ j, j ≠ i → t.landed j = s.landed j

theorem Stages.moves {s t : State} {stage : Nat → Stage} {i : Nat} {m : Stage} {p : CallM Int}
    (h : Stages s stage) (hm : Moves s t i m p) : Stages t (Function.update stage i m) := by
  refine ⟨fun j => ?_, fun j fd => ?_, fun j fd => ?_, fun j fd => ?_, fun j q => ?_⟩
  · rw [hm.threads]
    by_cases hj : j = i
    · subst hj
      simpa using hm.obeys
    · simpa [Function.update_of_ne hj] using h.obeys j
  · by_cases hj : j = i
    · subst hj
      simpa using hm.self fd
    · rw [Function.update_of_ne hj, hm.other j hj]
      exact h.holder j fd
  · rw [hm.map]
    by_cases hj : j = i
    · subst hj
      simpa using hm.untracked fd
    · rw [Function.update_of_ne hj]
      exact h.untracked j fd
  · rw [hm.map]
    by_cases hj : j = i
    · subst hj
      simpa using hm.knows fd
    · rw [Function.update_of_ne hj]
      intro hmap hheld
      have hother : s.holder fd ≠ some i := by
        rw [(h.holder j fd).mp hheld]
        simpa using hj
      obtain ⟨hoffset, hkernel⟩ := hm.kept fd hmap hother
      rw [hoffset, hkernel]
      exact h.knows j fd hmap hheld
  · by_cases hj : j = i
    · subst hj
      simpa using hm.position q
    · rw [Function.update_of_ne hj, hm.landed j hj]
      exact h.landed j q

/-- A description that nobody has locked afterwards. -/
theorem inv_moves {s t : State} {stage : Nat → Stage} {i : Nat} {m : Stage} {p : CallM Int}
    (h : Stages s stage) (hfree : ∀ fd, (s.map fd).isSome → s.holder fd = none →
      s.offset fd = s.kernel fd) (hm : Moves s t i m p)
    (hgiven : ∀ fd, (s.map fd).isSome → s.holder fd = some i → t.holder fd = none →
      t.offset fd = t.kernel fd) : Inv t := by
  refine ⟨⟨_, h.moves hm⟩, fun fd hmap hholder => ?_⟩
  rw [hm.map] at hmap
  by_cases hi : s.holder fd = some i
  · exact hgiven fd hmap hi hholder
  · obtain ⟨hoffset, hkernel⟩ := hm.kept fd hmap hi
    rw [hoffset, hkernel]
    apply hfree fd hmap
    cases hs : s.holder fd with
    | none => rfl
    | some j =>
      have hj : j ≠ i := fun hji => hi (by rw [hs, hji])
      have := (hm.other j hj fd).mpr hs
      rw [hholder] at this
      cases this

section

variable {s t : State} {stage : Nat → Stage} {i fd : Nat} {m : Stage} {p : CallM Int}

/-- The offsets of one fd change, whose description the thread has locked. -/
theorem Stages.moves_held (h : Stages s stage)
    (hfd : (stage i).held = some fd ∨ (s.map fd = none ∧ (stage i).held = none))
    (hmap : t.map = s.map) (hthreads : t.threads = Function.update s.threads i p)
    (hholder : t.holder = s.holder) (hobeys : Obeys offsetMonitor p m fun _ m => m.held = none)
    (hheld : m.held = (stage i).held) (huntracked : m.untracked = (stage i).untracked)
    (hother : ∀ fd', fd' ≠ fd → t.offset fd' = s.offset fd' ∧ t.kernel fd' = s.kernel fd')
    (hknows : (s.map fd).isSome → (stage i).held = some fd → m.Knows (t.offset fd) (t.kernel fd))
    (hposition : ∀ p, t.landed i = some p → m.position = some p)
    (hlanded : ∀ j, j ≠ i → t.landed j = s.landed j) : Moves s t i m p := by
  refine ⟨hmap, hthreads, hobeys, ?_, ?_, ?_, ?_, ?_, hposition, hlanded⟩
  · intro fd'
    rw [hheld, hholder]
    exact h.holder i fd'
  · intro j _ fd'
    rw [hholder]
  · intro fd' hfd'
    rw [huntracked] at hfd'
    exact h.untracked i fd' hfd'
  · intro fd' htracked hnot
    apply hother
    rintro rfl
    obtain hlocked | ⟨hnone, _⟩ := hfd
    · exact hnot ((h.holder i fd').mp hlocked)
    · rw [hnone] at htracked
      cases htracked
  · intro fd' htracked hfd'
    rw [hheld] at hfd'
    by_cases heq : fd' = fd
    · subst heq
      exact hknows htracked hfd'
    · obtain hlocked | ⟨_, hfree⟩ := hfd
      · rw [hlocked] at hfd'
        exact absurd (Option.some.inj hfd').symm heq
      · rw [hfree] at hfd'
        cases hfd'

/-- Nothing of the state changes but the program. -/
theorem Stages.moves_same (h : Stages s stage)
    (hobeys : Obeys offsetMonitor p m fun _ m => m.held = none) (hheld : m.held = (stage i).held)
    (huntracked : ∀ fd, m.untracked = some fd → s.map fd = none)
    (hpending : m.pending = (stage i).pending)
    (hstart : ∀ fd q, m.held = some fd → m.start = some q →
      (stage i).start = some q ∨ s.offset fd = q)
    (hposition : m.position = (stage i).position) :
    Moves s { s with threads := Function.update s.threads i p } i m p := by
  refine ⟨rfl, rfl, hobeys, ?_, fun _ _ _ => Iff.rfl, huntracked, fun _ _ _ => ⟨rfl, rfl⟩, ?_, ?_,
    fun _ _ => rfl⟩
  · intro fd
    rw [hheld]
    exact h.holder i fd
  · intro fd htracked hfd
    have hknows := h.knows i fd htracked (hheld ▸ hfd)
    refine ⟨hpending ▸ hknows.1, fun q hq => ?_⟩
    obtain hsame | hoffset := hstart fd q hfd hq
    · exact hknows.2 q hsame
    · exact hoffset
  · intro q hq
    rw [hposition]
    exact h.landed i q hq

theorem Stages.of_mayMove (h : Stages s stage) (hm : (stage i).mayMove fd) :
    (stage i).held = some fd ∨ (s.map fd = none ∧ (stage i).held = none) := by
  obtain ⟨hheld, _⟩ | ⟨huntracked, hfree⟩ := hm
  · exact Or.inl hheld
  · exact Or.inr ⟨h.untracked i fd huntracked, hfree⟩

/-- Before its real call a thread knows that the two offsets are the same. -/
theorem Stages.knows_mayMove (h : Stages s stage) (hm : (stage i).mayMove fd)
    (htracked : (s.map fd).isSome) :
    s.offset fd = s.kernel fd ∧ ∀ q, (stage i).start = some q → s.offset fd = q := by
  obtain ⟨hheld, hsettled⟩ | ⟨huntracked, _⟩ := hm
  · have hknows := h.knows i fd htracked hheld
    rw [Stage.Knows, hsettled] at hknows
    exact hknows
  · rw [h.untracked i fd huntracked] at htracked
    cases htracked

theorem fits_moved {offset n : Int} {kernel kernel' : Nat} (h : offset = kernel)
    (hkernel : (kernel' : Int) = if 0 < n then kernel + n else kernel) :
    Pending.Fits offset kernel' (if 0 < n then .moved n else .settled) := by
  by_cases hn : 0 < n
  · rw [if_pos hn] at hkernel ⊢
    change offset + n = kernel'
    omega
  · rw [if_neg hn] at hkernel ⊢
    exact h.trans hkernel.symm

end

/-! ## Steps -/

section

variable {s : State} {stage : Nat → Stage} {i fd : Nat} {p : CallM Int}

/-- The operation takes the stage of the thread along. -/
def Carries (s : State) (stage : Nat → Stage) (i : Nat) (o : Op) (r : o.Answer) (p : CallM Int) :
    Prop :=
  Obeys offsetMonitor p (offsetMonitor.next o (stage i) (s.answer ⟨o, r⟩))
      (fun _ m => m.held = none) →
    Moves s { s.after i ⟨o, r⟩ with threads := Function.update s.threads i p } i
      (offsetMonitor.next o (stage i) (s.answer ⟨o, r⟩)) p

theorem Stages.carries_lock {r : Unit} (h : Stages s stage)
    (hfree : ∀ fd, (s.map fd).isSome → s.holder fd = none → s.offset fd = s.kernel fd)
    (hadmits : s.admits ⟨.lock (.description fd), r⟩ = true)
    (hpermits : offsetMonitor.permits (.lock (.description fd)) (stage i)) :
    Carries s stage i (.lock (.description fd)) r p := by
  intro hobeys
  have hholder : s.holder fd = none := of_decide_eq_true hadmits
  have hheld : (stage i).held = none := hpermits
  refine ⟨rfl, rfl, hobeys, ?_, ?_, h.untracked i, fun _ _ _ => ⟨rfl, rfl⟩, ?_, h.landed i,
    fun _ _ => rfl⟩
  · intro fd'
    change some fd = some fd' ↔ Function.update s.holder fd (some i) fd' = some i
    by_cases hfd : fd' = fd
    · subst hfd
      simp
    · rw [Function.update_of_ne hfd, ← h.holder i fd', hheld]
      exact iff_of_false (by simpa using Ne.symm hfd) (by simp)
  · intro j hj fd'
    change Function.update s.holder fd (some i) fd' = some j ↔ _
    by_cases hfd : fd' = fd
    · subst hfd
      rw [Function.update_self, hholder]
      exact iff_of_false (by simpa using Ne.symm hj) (by simp)
    · rw [Function.update_of_ne hfd]
  · intro fd' htracked hfd'
    obtain rfl : fd = fd' := Option.some.inj hfd'
    exact ⟨hfree fd htracked hholder, fun q hq => by cases hq⟩

theorem Stages.carries_unlock {r : Unit} (h : Stages s stage)
    (hpermits : offsetMonitor.permits (.unlock (.description fd)) (stage i)) :
    Carries s stage i (.unlock (.description fd)) r p := by
  intro hobeys
  obtain ⟨hheld, hsettled⟩ := hpermits
  refine ⟨rfl, rfl, hobeys, ?_, ?_, h.untracked i, fun _ _ _ => ⟨rfl, rfl⟩, ?_, h.landed i,
    fun _ _ => rfl⟩
  · intro fd'
    change none = some fd' ↔ Function.update s.holder fd none fd' = some i
    by_cases hfd : fd' = fd
    · subst hfd
      simp
    · rw [Function.update_of_ne hfd, ← h.holder i fd', hheld]
      exact iff_of_false (by simp) (by simpa using Ne.symm hfd)
  · intro j hj fd'
    change Function.update s.holder fd none fd' = some j ↔ _
    by_cases hfd : fd' = fd
    · subst hfd
      rw [Function.update_self, (h.holder i fd').mp hheld]
      exact iff_of_false (by simp) (by simpa using Ne.symm hj)
    · rw [Function.update_of_ne hfd]
  · intro fd' _ hfd'
    cases hfd'

/-- The description's offset gets the value that the pending stage asks for. -/
theorem Stages.moves_offset {m : Stage} {v : Int} (h : Stages s stage)
    (hobeys : Obeys offsetMonitor p m fun _ m => m.held = none) (hheld : (stage i).held = some fd)
    (hm : m = { stage i with pending := .settled, start := none }) (hv : (s.map fd).isSome →
      v = s.kernel fd) :
    Moves s { s with
      offset := Function.update s.offset fd v
      threads := Function.update s.threads i p } i m p := by
  subst hm
  refine h.moves_held (Or.inl hheld) rfl rfl rfl hobeys rfl rfl ?_ ?_ (h.landed i) fun _ _ => rfl
  · exact fun fd' hfd' => ⟨Function.update_of_ne hfd' _ _, rfl⟩
  · intro htracked _
    refine ⟨?_, fun q hq => by cases hq⟩
    change Function.update s.offset fd v fd = s.kernel fd
    rw [Function.update_self]
    exact hv htracked

theorem Stages.carries_backupPwrite {id : Nat} {buf : List UInt8} {offset : Int}
    {r : Except Errno Nat}
    (h : Stages s stage)
    (hpermits : offsetMonitor.permits (.backup (.pwrite id buf offset)) (stage i)) :
    Carries s stage i (.backup (.pwrite id buf offset)) r p := by
  intro hobeys
  cases r with
  | error e =>
    exact h.moves_same hobeys rfl (h.untracked i) rfl (fun _ _ _ hq => Or.inl hq) rfl
  | ok n =>
    refine ⟨rfl, rfl, hobeys, h.holder i, fun _ _ _ => Iff.rfl, h.untracked i,
      fun _ _ _ => ⟨rfl, rfl⟩, h.knows i, ?_, fun j hj => Function.update_of_ne hj _ _⟩
    intro q hq
    change Function.update s.landed i ((s.landed i).map (· + (n : Int))) i = some q at hq
    rw [Function.update_self] at hq
    obtain ⟨a, ha, rfl⟩ := Option.map_eq_some_iff.mp hq
    obtain rfl : offset = a := Option.some.inj (hpermits.symm.trans (h.landed i a ha))
    rfl

theorem Stages.carries_read {nbyte : Nat} {r : Except Errno Int} (h : Stages s stage)
    (hpermits : offsetMonitor.permits (.real (.read fd nbyte)) (stage i)) :
    Carries s stage i (.real (.read fd nbyte)) r p := by
  intro hobeys
  refine h.moves_held (h.of_mayMove hpermits) rfl rfl rfl hobeys rfl rfl ?_ ?_ (h.landed i)
    fun _ _ => rfl
  · exact fun fd' hfd' => ⟨rfl, Function.update_of_ne hfd' _ _⟩
  · intro htracked hheld
    have hknows := h.knows_mayMove hpermits htracked
    refine ⟨?_, hknows.2⟩
    change Pending.Fits (s.offset fd)
      (Function.update s.kernel fd (s.kernel fd + (value r).toNat) fd : Nat)
      (if 0 < value r then .moved (value r) else .settled)
    rw [Function.update_self]
    exact fits_moved hknows.1 (by split <;> omega)

theorem Stages.carries_write {buf : List UInt8} {r : Except Errno Int} (h : Stages s stage)
    (hok : Tracks s (.perform i ⟨.real (.write fd buf), r⟩))
    (hpermits : offsetMonitor.permits (.real (.write fd buf)) (stage i)) :
    Carries s stage i (.real (.write fd buf)) r p := by
  intro hobeys
  obtain ⟨hmove, hstart⟩ := hpermits
  have hlanding : (s.map fd).isSome → 0 < value r → s.landing fd (s.kernel fd) = s.kernel fd := by
    intro htracked hpos
    unfold State.landing
    split
    · rename_i happend
      rw [hok htracked happend hpos]
    · rfl
  refine h.moves_held (h.of_mayMove hmove) (s.map_write ..) rfl (s.holder_write ..) hobeys
    rfl rfl ?_ ?_ ?_ fun j hj => s.landed_write_ne i fd _ _ hj
  · intro fd' hfd'
    refine ⟨congrFun (s.offset_write ..) fd', ?_⟩
    change (if 0 < value r then Function.update s.kernel fd _ else s.kernel) fd' = s.kernel fd'
    split
    · exact Function.update_of_ne hfd' _ _
    · rfl
  · intro htracked hheld
    have hknows := h.knows_mayMove hmove htracked
    have hoffset := congrFun (s.offset_write i fd (s.landing fd (s.kernel fd)) (value r)) fd
    constructor
    · change Pending.Fits ((s.write i fd _ (value r)).offset fd)
        ((if 0 < value r then Function.update s.kernel fd _ else s.kernel) fd : Nat)
        (if 0 < value r then .moved (value r) else .settled)
      rw [hoffset]
      apply fits_moved hknows.1
      split
      · rename_i hpos
        rw [Function.update_self, hlanding htracked hpos]
        omega
      · rfl
    · intro q hq
      change (s.write i fd _ (value r)).offset fd = q
      rw [hoffset]
      exact hknows.2 q hq
  · intro q hq
    obtain ⟨htracked, hpos, rfl⟩ := State.of_landed_write hq
    have hknows := h.knows_mayMove hmove htracked
    obtain huntracked | hsome := hstart
    · rw [h.untracked i fd huntracked] at htracked
      cases htracked
    · obtain ⟨q, hq⟩ := Option.isSome_iff_exists.mp hsome
      change (stage i).start = _
      rw [hq, hlanding htracked hpos, ← hknows.1, hknows.2 q hq]

theorem Stages.carries_pwrite {buf : List UInt8} {offset : Int} {r : Except Errno Int}
    (h : Stages s stage) (hok : Tracks s (.perform i ⟨.real (.pwrite fd buf offset), r⟩)) :
    Carries s stage i (.real (.pwrite fd buf offset)) r p := by
  intro hobeys
  have hholder := s.holder_write i fd (s.landing fd offset) (value r)
  have hoffset := s.offset_write i fd (s.landing fd offset) (value r)
  have hkernel := s.kernel_write i fd (s.landing fd offset) (value r)
  refine ⟨s.map_write .., rfl, hobeys, ?_, ?_, h.untracked i, ?_, ?_, ?_,
    fun j hj => s.landed_write_ne i fd _ _ hj⟩
  · intro fd'
    exact (h.holder i fd').trans (by rw [← hholder]; rfl)
  · intro j _ fd'
    exact iff_of_eq (congrArg (· = some j) (congrFun hholder fd'))
  · exact fun fd' _ _ => ⟨congrFun hoffset fd', congrFun hkernel fd'⟩
  · intro fd' htracked hheld
    have hknows := h.knows i fd' htracked hheld
    rw [← congrFun hoffset fd', ← congrFun hkernel fd'] at hknows
    exact hknows
  · intro q hq
    obtain ⟨htracked, hpos, rfl⟩ := State.of_landed_write hq
    change some offset = _
    unfold State.landing
    split
    · rename_i happend
      rw [hok htracked happend hpos]
    · rfl

theorem Stages.carries_lseek {offset : Int} {whence : Nat} {r : Except Errno Int}
    (h : Stages s stage) (hok : Tracks s (.perform i ⟨.real (.lseek fd offset whence), r⟩))
    (hadmits : s.admits ⟨.real (.lseek fd offset whence), r⟩ = true)
    (hpermits : offsetMonitor.permits (.real (.lseek fd offset whence)) (stage i)) :
    Carries s stage i (.real (.lseek fd offset whence)) r p := by
  intro hobeys
  cases r with
  | error e =>
    refine h.moves_held (h.of_mayMove hpermits) rfl rfl rfl hobeys rfl rfl
      (fun _ _ => ⟨rfl, rfl⟩) ?_ (h.landed i) fun _ _ => rfl
    intro htracked _
    obtain ⟨v, hv⟩ := hok htracked
    cases hv
  | ok v =>
    have hv : 0 ≤ v := of_decide_eq_true hadmits
    refine h.moves_held (h.of_mayMove hpermits) rfl rfl rfl hobeys rfl rfl ?_ ?_ (h.landed i)
      fun _ _ => rfl
    · exact fun fd' hfd' => ⟨rfl, Function.update_of_ne hfd' _ _⟩
    · intro htracked _
      refine ⟨?_, (h.knows_mayMove hpermits htracked).2⟩
      change v = (Function.update s.kernel fd v.toNat fd : Nat)
      rw [Function.update_self]
      omega

end

/-- An operation takes the stage of its thread along. -/
theorem moves_perform {s : State} {stage : Nat → Stage} {i : Nat} {o : Op} {r : o.Answer}
    {p : CallM Int} (h : Stages s stage)
    (hfree : ∀ fd, (s.map fd).isSome → s.holder fd = none → s.offset fd = s.kernel fd)
    (hok : Tracks s (.perform i ⟨o, r⟩))
    (hadmits : s.admits ⟨o, r⟩ = true) (hpermits : offsetMonitor.permits o (stage i))
    (hobeys : Obeys offsetMonitor p (offsetMonitor.next o (stage i) (s.answer ⟨o, r⟩))
      fun _ m => m.held = none) :
    Moves s { s.after i ⟨o, r⟩ with threads := Function.update s.threads i p } i
      (offsetMonitor.next o (stage i) (s.answer ⟨o, r⟩)) p := by
  have hsame : ∀ {m : Stage}, Obeys offsetMonitor p m (fun _ m => m.held = none) → m = stage i →
      Moves s { s with threads := Function.update s.threads i p } i m p := by
    intro m hobeys hm
    subst hm
    exact h.moves_same hobeys rfl (h.untracked i) rfl (fun _ _ _ hq => Or.inl hq) rfl
  cases o with
  | mapGet fd =>
    change Obeys offsetMonitor p (match s.map fd with | none => _ | some _ => _) _ at hobeys
    change Moves s _ i (match s.map fd with | none => _ | some _ => _) p
    cases hmap : s.map fd with
    | none =>
      rw [hmap] at hobeys
      refine h.moves_same hobeys rfl ?_ rfl (fun _ _ _ hq => Or.inl hq) rfl
      intro fd' hfd'
      obtain rfl := Option.some.inj hfd'
      exact hmap
    | some file =>
      rw [hmap] at hobeys
      exact hsame hobeys rfl
  | getOffset fd =>
    refine h.moves_same hobeys rfl (h.untracked i) rfl ?_ rfl
    intro fd' q hfd' hq
    obtain rfl : fd = fd' := Option.some.inj (hpermits.symm.trans hfd')
    exact Or.inr (Option.some.inj hq)
  | lock l =>
    cases l with
    | description fd =>
      exact h.carries_lock hfree hadmits hpermits hobeys
    | _ => exact hsame hobeys rfl
  | unlock l =>
    cases l with
    | description fd =>
      exact h.carries_unlock hpermits hobeys
    | _ => exact hsame hobeys rfl
  | incrementOffset fd n =>
    obtain ⟨hheld, hpending⟩ := hpermits
    refine h.moves_offset hobeys hheld rfl fun htracked => ?_
    have hknows := (h.knows i fd htracked hheld).1
    rw [hpending] at hknows
    exact hknows
  | seekDescription fd v =>
    obtain ⟨hheld, hpending⟩ := hpermits
    refine h.moves_offset hobeys hheld rfl fun htracked => ?_
    have hknows := (h.knows i fd htracked hheld).1
    rw [hpending] at hknows
    exact hknows
  | backup c =>
    cases c with
    | pwrite id buf offset =>
      exact h.carries_backupPwrite hpermits hobeys
    | _ => exact hsame hobeys rfl
  | real c =>
    cases c with
    | read fd nbyte =>
      exact h.carries_read hpermits hobeys
    | write fd buf =>
      exact h.carries_write hok hpermits hobeys
    | pwrite fd buf offset =>
      exact h.carries_pwrite hok hobeys
    | lseek fd offset whence =>
      exact h.carries_lseek hok hadmits hpermits hobeys
    | _ => exact hsame hobeys rfl
  | _ => exact hsame hobeys rfl

/-- A description that is given back has followed the kernel. -/
theorem given_back {s : State} {stage : Nat → Stage} {i fd : Nat} {o : Op} {r : o.Answer}
    (hstage : Stages s stage) (hpermits : offsetMonitor.permits o (stage i))
    (htracked : (s.map fd).isSome) (hholder : s.holder fd = some i)
    (hfree : (s.after i ⟨o, r⟩).holder fd = none) :
    (s.after i ⟨o, r⟩).offset fd = (s.after i ⟨o, r⟩).kernel fd := by
  have hkept : (s.after i ⟨o, r⟩).holder fd ≠ s.holder fd := by
    rw [hfree, hholder]
    simp
  cases o with
  | unlock l =>
    cases l with
    | description fd' =>
      obtain ⟨hheld, hsettled⟩ := hpermits
      by_cases hfd : fd = fd'
      · subst hfd
        have hknows := (hstage.knows i fd htracked hheld).1
        rw [hsettled] at hknows
        exact hknows
      · exact absurd (Function.update_of_ne hfd _ _) hkept
    | _ => exact absurd rfl hkept
  | lock l =>
    cases l with
    | description fd' =>
      by_cases hfd : fd = fd'
      · subst hfd
        change Function.update s.holder fd (some i) fd = none at hfree
        rw [Function.update_self] at hfree
        cases hfree
      · exact absurd (Function.update_of_ne hfd _ _) hkept
    | _ => exact absurd rfl hkept
  | backup c =>
    cases c with
    | pwrite id buf offset =>
      change Except Errno Nat at r
      cases r with
      | error e => exact absurd rfl hkept
      | ok n => exact absurd rfl hkept
    | _ => exact absurd rfl hkept
  | real c =>
    change Except Errno Int at r
    cases c with
    | write fd' buf => exact absurd (congrFun (s.holder_write ..) fd) hkept
    | pwrite fd' buf offset => exact absurd (congrFun (s.holder_write ..) fd) hkept
    | lseek fd' offset whence =>
      cases r with
      | error e => exact absurd rfl hkept
      | ok v => exact absurd rfl hkept
    | _ => exact absurd rfl hkept
  | _ => exact absurd rfl hkept

theorem obeys_method {c : AppCall} {p : CallM Int} (h : method c = some p) :
    Obeys offsetMonitor p .fresh fun _ m => m.held = none := by
  cases c with
  | read fd nbyte =>
    cases h
    exact obeys_managerRead fd nbyte
  | write fd buf =>
    cases h
    exact obeys_managerWrite fd buf
  | pwrite fd buf offset =>
    cases h
    exact obeys_managerPwrite fd buf offset
  | lseek fd offset whence =>
    cases h
    exact obeys_managerLseek fd offset whence
  | _ => cases h

theorem inv_step {s t : State} {a : Action} (h : Inv s) (hok : Tracks s a)
    (hstep : step s a = some t) : Inv t := by
  obtain ⟨⟨stage, hstage⟩, hfree⟩ := h
  cases a with
  | call i c =>
    simp only [step] at hstep
    split at hstep
    · rename_i v p hv hp
      cases hstep
      have hheld : (stage i).held = none := by
        have hobeys := hstage.obeys i
        rw [hv] at hobeys
        exact hobeys
      have hnot : ∀ fd, s.holder fd ≠ some i := by
        intro fd hholder
        rw [(hstage.holder i fd).mpr hholder] at hheld
        cases hheld
      refine @inv_moves _ _ _ _ .fresh _ hstage hfree
        ⟨rfl, rfl, obeys_method hp, ?_, fun _ _ _ => Iff.rfl, ?_, fun _ _ _ => ⟨rfl, rfl⟩, ?_, ?_,
          fun j hj => Function.update_of_ne hj _ _⟩ fun fd _ hholder _ => absurd hholder (hnot fd)
      · exact fun fd => iff_of_false (by simp [Stage.fresh]) (hnot fd)
      · intro fd hfd
        cases hfd
      · intro fd _ hfd
        cases hfd
      · intro q hq
        change Function.update s.landed i none i = some q at hq
        rw [Function.update_self] at hq
        cases hq
    · cases hstep
  | resize fd size =>
    cases hstep
    exact ⟨⟨stage, hstage.1, hstage.2, hstage.3, hstage.4, hstage.5⟩, hfree⟩
  | perform i e =>
    obtain ⟨o, r⟩ := e
    have hobeys := hstage.obeys i
    simp only [step, stepThread] at hstep
    cases hp : s.threads i with
    | done v => rw [hp] at hstep; cases hstep
    | fail e => rw [hp] at hstep; cases hstep
    | step o' k =>
      rw [hp] at hstep hobeys
      dsimp only at hstep
      split at hstep
      · rename_i ho
        subst ho
        obtain ⟨hadmits, ht⟩ := Option.ite_none_right_eq_some.mp hstep
        cases ht
        obtain ⟨hpermits, hnext⟩ := hobeys
        exact inv_moves hstage hfree
          (moves_perform hstage hfree hok hadmits hpermits (hnext (s.answer ⟨o, r⟩)))
          fun fd htracked hholder hnone => given_back hstage hpermits htracked hholder hnone
      · cases hstep

/-! ## The main result -/

/-- The description's offset is the kernel's while nobody has the lock. -/
def Tracked (s : State) : Prop :=
  ∀ fd, (s.map fd).isSome → s.holder fd = none → s.offset fd = s.kernel fd

/-- Whoever is about to write to the backup writes where the bytes of the real call are. -/
def InStep (s : State) : Prop :=
  ∀ i id buf offset k, s.threads i = .step (.backup (.pwrite id buf offset)) k →
    ∀ position, s.landed i = some position → offset = position

/-- In every run in which `lseek` succeeds and appending writes find the end of the file at the
description's offset, the two offsets agree, and captured writes go where the real ones went. -/
theorem offsets_tracked {s t : State} {as : List Action} (hs : Initial s)
    (hok : RunOk step Tracks s as) (hrun : run step s as = some t) : Tracked t ∧ InStep t := by
  obtain ⟨⟨stage, hstage⟩, hfree⟩ :=
    run_invariant (fun s a s' h hok hstep => inv_step h hok hstep) (inv_initial hs) hok hrun
  refine ⟨hfree, fun i id buf offset k hthread position hposition => ?_⟩
  have hobeys := hstage.obeys i
  rw [hthread] at hobeys
  have hpermits : (stage i).position = some offset := hobeys.1
  exact Option.some.inj (hpermits.symm.trans (hstage.landed i position hposition))

/-- The fd 3 has just been opened on a file of five bytes. -/
def opened (append : Bool) : State where
  map fd := if fd = 3 then some 1 else none
  append _ := append
  size _ := 5
  kernel _ := 0
  offset _ := 0
  holder _ := none
  landed _ := none
  threads _ := .done 0

theorem initial_opened (append : Bool) : Initial (opened append) :=
  ⟨fun _ => rfl, fun _ => rfl, fun _ => rfl, fun _ => rfl, fun _ => ⟨0, rfl⟩⟩

/-- Thread 0 reads less than it asks for while thread 1 waits, and then thread 1 seeks. -/
def readThenSeek : List Action :=
  [.call 0 (.read 3 10), .call 1 (.lseek 3 2 0), .perform 0 ⟨.mapGet 3, some 1⟩,
    .perform 1 ⟨.mapGet 3, some 1⟩, .perform 0 ⟨.lock (.description 3), ()⟩,
    .perform 0 ⟨.real (.read 3 10), .ok 5⟩, .perform 0 ⟨.incrementOffset 3 5, ()⟩,
    .perform 0 ⟨.unlock (.description 3), ()⟩, .perform 1 ⟨.lock (.description 3), ()⟩,
    .perform 1 ⟨.real (.lseek 3 2 0), .ok 2⟩, .perform 1 ⟨.seekDescription 3 2, ()⟩,
    .perform 1 ⟨.unlock (.description 3), ()⟩]

theorem offsets_tracked_readThenSeek : ∃ t, run step (opened false) readThenSeek = some t ∧
    t.offset 3 = 2 ∧ Tracked t ∧ InStep t := by
  have hrun : ∃ t, run step (opened false) readThenSeek = some t ∧ t.offset 3 = 2 := ⟨_, rfl, rfl⟩
  obtain ⟨t, hrun, hoffset⟩ := hrun
  refine ⟨t, hrun, hoffset, offsets_tracked (initial_opened false) (runOk_of_mem ?_) hrun⟩
  intro a ha s
  simp only [readThenSeek, List.mem_cons, List.not_mem_nil, or_false] at ha
  rcases ha with rfl | rfl | rfl | rfl | rfl | rfl | rfl | rfl | rfl | rfl | rfl | rfl
  all_goals first
    | trivial
    | exact fun _ => ⟨2, rfl⟩

/-- An fd that appends: the kernel's offset is behind the new byte, the description's is 1. -/
theorem not_offsets_tracked_append : ¬ ∀ (s t : State) (as : List Action), Initial s →
    run step s as = some t → Tracked t ∧ InStep t := by
  intro h
  have hrun : ∃ t, run step (opened true) [.call 0 (.write 3 [97]), .perform 0 ⟨.mapGet 3, some 1⟩,
      .perform 0 ⟨.lock (.description 3), ()⟩, .perform 0 ⟨.getOffset 3, (0 : Int)⟩,
      .perform 0 ⟨.lockRange 1 ⟨0, 1⟩, ()⟩, .perform 0 ⟨.real (.write 3 [97]), .ok 1⟩,
      .perform 0 ⟨.incrementOffset 3 1, ()⟩, .perform 0 ⟨.unlock (.description 3), ()⟩] = some t ∧
      (t.map 3).isSome ∧ t.holder 3 = none ∧ t.offset 3 = 1 ∧ t.kernel 3 = 6 :=
    ⟨_, rfl, rfl, rfl, rfl, rfl⟩
  obtain ⟨t, hrun, hmap, hholder, hoffset, hkernel⟩ := hrun
  have htracked := (h _ t _ (initial_opened true) hrun).1 3 hmap hholder
  rw [hoffset, hkernel] at htracked
  exact absurd htracked (by decide)

end TokuBackup.Interpose.Offsets
