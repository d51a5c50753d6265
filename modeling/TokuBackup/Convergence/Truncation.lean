import TokuBackup.Convergence.Main

/-!
# Opening with truncation

The machine of one file, with opens that carry `O_CREAT`, `O_TRUNC` and an access mode. The
real `open` cuts the source off before the manager is entered, and outside any range lock;
`try_to_create_destination_file` opens the backup file as it is. So the cut reaches the backup
file only when there is nothing to cut in it.

The file may be missing until an open creates it, and the copier may come to its directory
before. After the opens the application calls `write` and `pwrite`.
-/

namespace TokuBackup.Convergence

open Kernel

/-! ## The machine -/

inductive Access where
  | readOnly
  | writeOnly
  | readWrite
  deriving DecidableEq

def Access.writes (a : Access) : Bool := a ≠ .readOnly

structure OpenFlags where
  /-- `O_CREAT` -/
  creat : Bool
  /-- `O_TRUNC` -/
  trunc : Bool
  access : Access

structure OpenState where
  file : State
  /-- The source file exists. -/
  found : Bool
  /-- The copier has listed the file's directory. -/
  listed : Bool
  /-- The fd whose open holds `m_atomic_file_op_mutex`. -/
  fileOp : Option Nat
  access : Nat → Access

inductive OpenAction where
  /-- The real `open` of the file, which returns `fd`. -/
  | openFile (fd : Nat) (flags : OpenFlags)
  /-- The copier reads the entries of the directory. -/
  | list
  | other (a : Action)

def Call.writes : Call → Bool
  | .ftruncate _ _ => false
  | _ => true

def openFile (s : OpenState) (fd : Nat) (flags : OpenFlags) : Option OpenState :=
  if (flags.creat = true → s.fileOp = none) ∧ (s.found = true ∨ flags.creat = true) then
    (step s.file (.openReal fd)).map fun file =>
      { file := if flags.trunc then { file with src := file.src.truncate 0 } else file
        found := true
        listed := s.listed
        -- with `O_CREAT` the mutex is held until the interposed `open` returns
        fileOp := if flags.creat then some fd else s.fileOp
        access := Function.update s.access fd flags.access }
  else none

/-- A file that is missing from the listing is not copied. -/
def list (s : OpenState) : Option OpenState :=
  if s.listed then none
  else if s.found then some { s with listed := true }
  else some { s with
    listed := true
    file := { s.file with copier := { s.file.copier with pc := .over true } } }

/-- The steps of the file's machine that can be taken: an fd is opened by `openFile`, the
application writes with an fd that is open for writing, and the copier has listed the file. -/
def OpenState.allows (s : OpenState) : Action → Bool
  | .openReal _ => false
  | .call _ c => c.writes && (s.access c.fd).writes
  | .copier _ => s.listed
  | .copierAbort _ => s.listed
  | _ => true

/-- The interposed `open` of an fd returns with its last section. -/
def fileOpAfter (fileOp : Option Nat) : Action → Option Nat
  | .openCapture fd => if fileOp = some fd then none else fileOp
  | _ => fileOp

def stepOpen (s : OpenState) : OpenAction → Option OpenState
  | .openFile fd flags => openFile s fd flags
  | .list => list s
  | .other a =>
    if s.found && s.allows a then
      (step s.file a).map fun file => { s with file, fileOp := fileOpAfter s.fileOp a }
    else none

/-- On the empty file the effect changes nothing. -/
def Effect.leavesEmpty : Effect → Bool
  | .write _ buf => buf.isEmpty
  | .truncate length => length = 0

def CopierPc.isWriting : CopierPc → Bool
  | .writing _ => true
  | _ => false

/-- There is nothing to cut off: the source is empty already, or the backup file is, and
neither the copier nor a call is about to write bytes of the old content into it. -/
def NothingToCut (s : State) : Prop :=
  s.src.len = 0 ∨
    s.dst.len = 0 ∧ s.copier.pc.isWriting = false ∧
      ∀ th ∈ s.threads, ∀ e ∈ th.pending, e.leavesEmpty = true

instance decidableNothingToCut (s : State) : Decidable (NothingToCut s) := by
  unfold NothingToCut
  infer_instance

/-- A truncating open comes when there is nothing to cut off. -/
def CutsNothing (s : OpenState) : OpenAction → Prop
  | .openFile _ flags => flags.trunc = true → NothingToCut s.file
  | _ => True

instance decidableCutsNothing (s : OpenState) : ∀ a, Decidable (CutsNothing s a)
  | .openFile _ flags => by
    unfold CutsNothing
    infer_instance
  | .list | .other _ => isTrue trivial

/-- The source is emptied while the copy is empty and stays so. -/
theorem Mirrored.emptied {ι : Type} {dst : Content} {pending : ι → Option Effect}
    {copied : Nat} {finished : Prop} (hdst : dst.len = 0)
    (hp : ∀ t e, pending t = some e → e.leavesEmpty = true) :
    Mirrored Content.empty dst pending copied finished where
  write_len t o b ht hb := absurd (List.isEmpty_iff.mp (hp t _ ht)) hb
  write_byte t o b i ht h1 h2 := by
    have hb : b = [] := List.isEmpty_iff.mp (hp t _ ht)
    rw [hb] at h2
    exact absurd h2 (Nat.not_lt.mpr h1)
  truncate_len t l ht := (of_decide_eq_true (hp t _ ht)).symm
  bytes i _ _ := dst.tail i (hdst.le.trans (Nat.zero_le i))
  dst_len _ := hdst.le
  src_len _ n hn _ := Or.inl (hn.trans (Nat.zero_le _))

section

variable (s : State)

theorem unlock_threads (r : Range) : (unlock s r).threads = s.threads := by
  unfold unlock
  split <;> rfl

theorem tryToRemoveDestination_threads : (tryToRemoveDestination s).threads = s.threads := by
  obtain ⟨dest, hframe⟩ := tryToRemoveDestination_frame s
  rw [hframe]

theorem tryToCreateDestinationFile_threads :
    (tryToCreateDestinationFile s).threads = s.threads := by
  obtain ⟨dest, fresh, hframe⟩ := tryToCreateDestinationFile_frame s
  rw [hframe]

theorem tryToRemoveLocked_threads : (tryToRemoveLocked s).threads = s.threads := by
  obtain ⟨dest, l, hframe⟩ := tryToRemoveLocked_frame s
  rw [hframe]

end

section

variable {s s' : State}

theorem stepCopier_threads {n : Nat} (hstep : stepCopier s n = some s') :
    s'.threads = s.threads := by
  simp only [stepCopier] at hstep
  split at hstep
  case h_3 => exact Option.some.inj hstep ▸ tryToCreateDestinationFile_threads s
  case h_5 =>
    obtain ⟨l, -, rfl⟩ := Option.map_eq_some_iff.mp hstep
    rfl
  case h_6 =>
    split at hstep
    · exact (Option.some.inj (Option.ite_none_right_eq_some.mp hstep).2) ▸ rfl
    · exact (Option.some.inj (Option.ite_none_right_eq_some.mp hstep).2) ▸ rfl
  case h_7 =>
    split at hstep
    · split at hstep <;> exact Option.some.inj hstep ▸ rfl
    · exact Option.some.inj hstep ▸ rfl
  case h_8 => exact Option.some.inj hstep ▸ unlock_threads s _
  case h_9 => exact Option.some.inj hstep ▸ unlock_threads s _
  case h_10 => exact Option.some.inj hstep ▸ tryToRemoveDestination_threads s
  case h_12 => exact Option.some.inj hstep ▸ tryToRemoveLocked_threads s
  case h_13 => cases hstep
  all_goals exact Option.some.inj hstep ▸ rfl

/-- The calls that are in flight are writes. -/
def WritesOnly (s : State) : Prop := ∀ th ∈ s.threads, ∀ c, th.call? = some c → c.writes = true

theorem WritesOnly.congr (h : WritesOnly s) (hthreads : s'.threads = s.threads) :
    WritesOnly s' := by
  intro th hth
  rw [hthreads] at hth
  exact h th hth

theorem WritesOnly.set (h : WritesOnly s) {t : Nat} {th : Thread}
    (hthreads : s'.threads = s.threads.set t th)
    (hcall : ∀ c, th.call? = some c → c.writes = true) : WritesOnly s' := by
  intro th' hth' c hc
  rw [hthreads] at hth'
  rcases List.mem_or_eq_of_mem_set hth' with hold | heq
  · exact h th' hold c hc
  · rw [heq] at hc
    exact hcall c hc

end

/-! ## Whole runs -/

end TokuBackup.Convergence
