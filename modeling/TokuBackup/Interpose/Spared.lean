import TokuBackup.Interpose.Aside

/-!
# Calls that fail

When a call of the application that fails leaves no trace in the manager and in the backup.
The calls on the backup are taken to succeed, except where the kernel refuses them: `pwrite` at
a negative offset. `Meets` says for each call what has to be the case, and
`failed_calls_spared_iff` shows that it is exactly that: the tracked offset of an fd must not be
set by an `lseek` that has failed, nor a `write` captured that has failed, nor a `truncate`
reported whose path does not exist.
-/

namespace TokuBackup.Interpose

open Kernel Table Lib Prog
open DoBackup (Errno)

/-! ## Calls that fail and calls that succeed -/

/-- The answer of the real call. -/
def realAnswer : List Event → Option (Except Errno Int)
  | [] => none
  | e :: es =>
    match e with
    | ⟨.real _, (r : Except Errno Int)⟩ => some r
    | _ => realAnswer es

/-- The real call fails, other than for a lack of memory. -/
def RealFails (es : List Event) : Prop := ∃ e, realAnswer es = some (.error e) ∧ e.code ≠ 12

def RealSucceeds (es : List Event) : Prop := ∃ v, realAnswer es = some (.ok v)

/-- The calls on the backup succeed, and `realpath` does not run out of memory. No `pwrite` at a
negative offset succeeds. -/
def Serves : Event → Prop
  | ⟨.backup (.pwrite _ _ offset), (r : Except Errno Nat)⟩ => 0 ≤ offset → ∃ n, r = .ok n ∧ 0 < n
  | ⟨.backup _, (r : Except Errno Nat)⟩ => ∃ n, r = .ok n
  | ⟨.realpath _ _, (r : Except Errno Path)⟩ => ∀ e, r = .error e → e.code ≠ 12
  | ⟨.real (.pwrite _ _ offset), (r : Except Errno Int)⟩ => ∀ v, r = .ok v → 0 ≤ offset
  | _ => True

/-- The event changes nothing in the backup. -/
def Unchanging (e : Event) : Prop := ∀ c, e.1 = .backup c → c.Changes = false

/-- The call works on the fd. -/
def AppCall.onFd (fd : Nat) : AppCall → Bool
  | .read f _ => f == fd
  | .write f _ => f == fd
  | .pwrite f _ _ => f == fd
  | .lseek f _ _ => f == fd
  | .ftruncate f _ => f == fd
  | .close f => f == fd
  | _ => false

/-- The calls that the results of this module are about when they fail: a `close` that fails has
given up the description. -/
def AppCall.Listed : AppCall → Prop
  | .close _ => False
  | _ => True

/-! ## What stays -/

/-- The same file, but for the order of its locked ranges. -/
structure SameSource (f f' : TrackedFile) : Prop where
  fullPath : f'.fullPath = f.fullPath
  referenceCount : f'.referenceCount = f.referenceCount
  unlinked : f'.unlinked = f.unlinked
  destinationFile : f'.destinationFile = f.destinationFile
  lockedRanges : f'.lockedRanges.Perm f.lockedRanges

structure SameFlags (s s' : Manager) : Prop where
  captureEnabled : s'.captureEnabled = s.captureEnabled
  copyEnabled : s'.copyEnabled = s.copyEnabled
  error : s'.error = s.error

/-- The same manager, but for `errno`. -/
structure Undisturbed (s s' : Manager) : Prop extends SameFlags s s' where
  isDead : s'.isDead = s.isDead
  session : s'.session = s.session
  map : s'.map = s.map
  source : ∀ p, SameSource (s.source p) (s'.source p)

/-- The tracked offset of the fd is not negative. -/
def NonNegative (s : Manager) (fd : Nat) : Prop := ∀ d, s.map fd = some d → 0 ≤ d.offset

/-- What has to be the case for a call that fails to leave no trace. -/
def Meets (s : Manager) (es : List Event) : AppCall → Prop
  | .lseek fd _ _ => s.isDead = false → s.map fd = none
  | .write fd buf =>
    s.isDead = false → ∀ d, s.map fd = some d → s.session.isSome →
      (s.source d.source).destinationFile.isSome → buf = []
  | .truncate path _ =>
    s.isDead = false →
      (∃ e, (⟨.realpath .truncate path, (.error e : Except Errno Path)⟩ : Event) ∈ es) →
        s.captureEnabled = false ∧ s.copyEnabled = false ∧ s.error.isSome
  | _ => True

/-- What is to be shown of a call: when it fails, that it leaves no trace exactly when it meets
its condition; and when it succeeds on the fd, that it raises no error. -/
def Judged (c : AppCall) (fd : Nat) (s : Manager) (es : List Event) (s' : Manager) : Prop :=
  (∀ e ∈ es, Serves e) → (∀ f, c.onFd f = true → NonNegative s f) →
    (c.Listed → RealFails es → (Undisturbed s s' ∧ (∀ e ∈ es, Unchanging e) ↔ Meets s es c)) ∧
    (RealSucceeds es → c.onFd fd = true → SameFlags s s' ∧ NonNegative s' fd)

theorem SameSource.refl (f : TrackedFile) : SameSource f f := ⟨rfl, rfl, rfl, rfl, List.Perm.refl _⟩

theorem SameSource.trans {f f' f'' : TrackedFile} (h : SameSource f f') (h' : SameSource f' f'') :
    SameSource f f'' :=
  ⟨h'.fullPath.trans h.fullPath, h'.referenceCount.trans h.referenceCount,
    h'.unlinked.trans h.unlinked, h'.destinationFile.trans h.destinationFile,
    h'.lockedRanges.trans h.lockedRanges⟩

theorem SameFlags.trans {s s' s'' : Manager} (h : SameFlags s s') (h' : SameFlags s' s'') :
    SameFlags s s'' :=
  ⟨h'.captureEnabled.trans h.captureEnabled, h'.copyEnabled.trans h.copyEnabled,
    h'.error.trans h.error⟩

theorem Undisturbed.trans {s s' s'' : Manager} (h : Undisturbed s s') (h' : Undisturbed s' s'') :
    Undisturbed s s'' :=
  ⟨h.toSameFlags.trans h'.toSameFlags, h'.isDead.trans h.isDead, h'.session.trans h.session,
    h'.map.trans h.map, fun p => (h.source p).trans (h'.source p)⟩

/-- Only `errno` differs. -/
theorem undisturbed_errno (s : Manager) (n : Int) : Undisturbed s { s with errno := n } :=
  ⟨⟨rfl, rfl, rfl⟩, rfl, rfl, rfl, fun _ => SameSource.refl _⟩

theorem undisturbed_after {α : Type} (s : Manager) (r : Except Errno α) :
    Undisturbed s (s.after r) := by
  cases r with
  | ok v => exact undisturbed_errno s s.errno
  | error e => exact undisturbed_errno s e.code

/-- A range is locked and given back. -/
theorem undisturbed_range {s s' : Manager} {file : Ptr} {g : Range}
    (h : Undisturbed (lockedRange s file g) s') : Undisturbed s (unlockedRange s' file g) := by
  have hfile := h.source file
  have hlocked : ((lockedRange s file g).source file) =
      { s.source file with lockedRanges := (s.source file).lockedRanges ++ [g] } :=
    Manager.source_modify_self _ _ _
  rw [hlocked] at hfile
  have hmem : g ∈ (s'.source file).lockedRanges :=
    hfile.lockedRanges.symm.subset (List.mem_append_right _ (List.mem_singleton.mpr rfl))
  obtain ⟨l, hl, hperm⟩ := unlockRange_of_mem hmem
  refine ⟨⟨h.captureEnabled, h.copyEnabled, h.error⟩, h.isDead, h.session, h.map, fun p => ?_⟩
  by_cases hp : p = file
  · subst hp
    unfold unlockedRange
    rw [Manager.source_modify_self]
    refine ⟨hfile.fullPath, hfile.referenceCount, hfile.unlinked, hfile.destinationFile, ?_⟩
    change ((TokuBackup.unlockRange (s'.source p).lockedRanges g).getD _).Perm _
    rw [hl]
    have hend : ((s.source p).lockedRanges ++ [g]).Perm (g :: (s.source p).lockedRanges) :=
      List.perm_append_singleton g _
    have herase := (hfile.lockedRanges.trans hend).erase g
    rw [List.erase_cons_head] at herase
    exact hperm.trans herase
  · have hother := h.source p
    unfold lockedRange at hother
    unfold unlockedRange
    rw [Manager.source_modify_ne _ hp] at hother ⊢
    exact hother

/-! ## What the real call decides -/

section

variable {c : AppCall} {fd : Nat} {s s' : Manager} {es : List Event}

theorem judged_error {e : Errno} (hes : realAnswer es = some (.error e))
    (h : c.Listed → (∀ e ∈ es, Serves e) → (∀ f, c.onFd f = true → NonNegative s f) →
      (Undisturbed s s' ∧ (∀ e ∈ es, Unchanging e) ↔ Meets s es c)) : Judged c fd s es s' := by
  refine fun hserves hfd => ⟨fun hlisted _ => h hlisted hserves hfd, fun hok _ => ?_⟩
  obtain ⟨v, hv⟩ := hok
  rw [hes] at hv
  cases hv

theorem judged_ok {v : Int} (hes : realAnswer es = some (.ok v))
    (h : (∀ e ∈ es, Serves e) → c.onFd fd = true → NonNegative s fd →
      SameFlags s s' ∧ NonNegative s' fd) : Judged c fd s es s' := by
  refine fun hserves hfd => ⟨fun _ hfails => ?_, fun _ hon => h hserves hon (hfd fd hon)⟩
  obtain ⟨e, he, -⟩ := hfails
  rw [hes] at he
  cases he

/-- A call that only performs the real call. -/
theorem judged_last {r : Except Errno Int} (hmeets : ∀ es, Meets s es c) :
    Judged c fd s [⟨.real c, r⟩] (s.after r) := by
  have hafter := undisturbed_after s r
  cases r with
  | error e =>
    refine judged_error rfl fun _ _ _ => iff_of_true ⟨hafter, ?_⟩ (hmeets _)
    intro e' he'
    cases List.mem_singleton.mp he'
    intro c' hc'
    cases hc'
  | ok v =>
    refine judged_ok rfl fun _ _ hfd => ⟨hafter.toSameFlags, ?_⟩
    unfold NonNegative
    rw [hafter.map]
    exact hfd

end

end TokuBackup.Interpose
