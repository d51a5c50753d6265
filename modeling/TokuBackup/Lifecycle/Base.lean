import TokuBackup.Lifecycle.Model
import TokuBackup.Table.Operations

/-!
# References

The invariant that everything else about the machine rests on. The table is sound and holds
exactly the live source files; whoever uses a source file holds a reference to it; and the
reference count of a file is at least the number of its holders. It is exactly that number
when no reference was left behind, which is what `exact` says.

Each rule below is one way in which a step touches the files: not at all, by changing one
object, by taking a reference, by giving one back, by leaving one behind, and by a rename.
-/

namespace TokuBackup.Lifecycle

open Kernel Table Lib

/-! ## Holders -/

/-- Who may hold a reference: an fd, the operation that holds `m_atomic_file_op_mutex`, and
the copier. -/
inductive Holder where
  | fd (fd : Nat)
  | fileOp
  | copier
  deriving DecidableEq

/-- The file that `unlink` holds a reference to. -/
def FileOp.source : FileOp → Option Ptr
  | .unlinkHeld _ p => some p
  | _ => none

/-- The file that the copier holds a reference to. -/
def Backup.source : Backup → Option Ptr
  | .copying c => some c.file
  | _ => none

def State.heldBy (s : State) : Holder → Option Ptr
  | .fd fd => (s.fds fd).bind fun d => d.stage.source
  | .fileOp => s.fileOp.source
  | .copier => s.backup.source

structure Base (hash : Path → Nat) (exact : Prop) (s : State) : Prop where
  rep : Rep hash s.files
  fresh : ∀ p f, s.files.heap p = some f → p < s.files.fresh
  mem : ∀ p, s.files.table.Mem p ↔ s.files.heap p ≠ none
  counted : ∀ p f, s.files.heap p = some f → 0 < f.referenceCount ∧
    ∃ n, Counted (fun h => s.heldBy h = some p) n ∧ n ≤ f.referenceCount ∧
      (exact → n = f.referenceCount)
  held : ∀ h p, s.heldBy h = some p → s.files.heap p ≠ none
  check : s.fault ≠ some .check

section

variable {hash : Path → Nat} {exact : Prop} {s s' : State} {p : Ptr} {f g : SourceFile}

/-! ## What the invariant gives -/

theorem Base.live (hb : Base hash exact s) {h : Holder} (hp : s.heldBy h = some p) :
    ∃ f, s.files.heap p = some f ∧ s.files.table.Mem p ∧ 0 < f.referenceCount := by
  have hlive := hb.held h p hp
  obtain ⟨f, hf⟩ := Option.ne_none_iff_exists'.mp hlive
  exact ⟨f, hf, (hb.mem p).mpr hlive, (hb.counted p f hf).1⟩

/-- Two holders make the count at least two. -/
theorem Base.two_le (hb : Base hash exact s) {h h' : Holder} (hp : s.heldBy h = some p)
    (hp' : s.heldBy h' = some p) (hne : h ≠ h') (hf : s.files.heap p = some f) :
    1 < f.referenceCount := by
  obtain ⟨-, n, hn, hle, -⟩ := hb.counted p f hf
  have := hn.two_le hp hp' hne
  omega

/-! ## The rules -/

/-- A step that leaves the files alone and moves no reference. -/
theorem Base.congr (hb : Base hash exact s) (hfiles : s'.files = s.files)
    (hheld : ∀ h, s'.heldBy h = s.heldBy h) (hfault : s'.fault = s.fault) : Base hash exact s' where
  rep := hfiles ▸ hb.rep
  fresh := hfiles ▸ hb.fresh
  mem := hfiles ▸ hb.mem
  counted p f hf := by
    rw [hfiles] at hf
    simp only [hheld]
    exact hb.counted p f hf
  held h p hp := by
    rw [hheld] at hp
    rw [hfiles]
    exact hb.held h p hp
  check := hfault ▸ hb.check

/-- A step that changes an object, but neither its name nor its count. -/
theorem Base.modify (hb : Base hash exact s) (hf : s.files.heap p = some f)
    (hheap : s'.files.heap = Function.update s.files.heap p (some g))
    (htable : s'.files.table = s.files.table) (hfresh : s'.files.fresh = s.files.fresh)
    (hname : g.fullPath = f.fullPath) (hcount : g.referenceCount = f.referenceCount)
    (hheld : ∀ h, s'.heldBy h = s.heldBy h) (hfault : s'.fault = s.fault) :
    Base hash exact s' := by
  have hlive : ∀ q, s'.files.heap q = none ↔ s.files.heap q = none := by
    intro q
    rw [hheap, Function.update_apply]
    split
    · rename_i hq
      simp [hq, hf]
    · rfl
  have hold : ∀ q h, s'.files.heap q = some h →
      ∃ h', s.files.heap q = some h' ∧ h.referenceCount = h'.referenceCount := by
    intro q h hq
    rw [hheap, Function.update_apply] at hq
    split at hq
    · rename_i hqp
      cases hq
      exact ⟨f, by rw [hqp, hf], hcount⟩
    · exact ⟨h, hq, rfl⟩
  refine ⟨hb.rep.congr htable hfresh.ge fun q _ => ?_, fun q h hq => ?_, fun q => ?_,
    fun q h hq => ?_, fun h q hq => ?_, hfault ▸ hb.check⟩
  · rw [Files.name, hheap, ← Files.name_set_same (q := q) hf hname]
    rfl
  · obtain ⟨h', hq', -⟩ := hold q h hq
    rw [hfresh]
    exact hb.fresh q h' hq'
  · rw [htable, hb.mem q]
    exact not_congr (hlive q).symm
  · obtain ⟨h', hq', hc⟩ := hold q h hq
    simp only [hheld, hc]
    exact hb.counted q h' hq'
  · rw [hheld] at hq
    exact fun hnone => hb.held h q hq ((hlive q).mp hnone)

/-- The object that `get_or_create` returns is new, or it has one more reference; no other
object changes. -/
theorem Base.getOrCreate_counted (hb : Base hash exact s) (n : Path) :
    ∃ p F' g m, s.files.getOrCreate hash n = .ok (p, F') ∧ Rep hash F' ∧
      F'.heap = Function.update s.files.heap p (some g) ∧
      (∀ q, F'.table.Mem q ↔ s.files.table.Mem q ∨ q = p) ∧
      s.files.fresh ≤ F'.fresh ∧ p < F'.fresh ∧ Counted (fun h => s.heldBy h = some p) m ∧
      m + 1 ≤ g.referenceCount ∧ (exact → m + 1 = g.referenceCount) := by
  obtain ⟨p, F', hrun, hrep, ⟨hp, f, hf, -, rfl⟩ | ⟨-, rfl, hfr, -, hheap, hmem⟩⟩ :=
    hb.rep.getOrCreate n
  · obtain ⟨-, m, hm, hle, hex⟩ := hb.counted p f hf
    refine ⟨p, _, _, m, hrun, hrep, rfl, fun q => ?_, le_rfl, hb.fresh p f hf, hm,
      Nat.succ_le_succ hle, fun he => congrArg Nat.succ (hex he)⟩
    exact ⟨Or.inl, fun hq => hq.elim id fun hq => hq ▸ hp⟩
  · refine ⟨_, F', _, 0, hrun, hrep, hheap, hmem, hfr ▸ Nat.le_succ _, hfr ▸ Nat.lt_succ_self _,
      Counted.none fun h hh => ?_, le_rfl, fun _ => rfl⟩
    obtain ⟨f, hf⟩ := Option.ne_none_iff_exists'.mp (hb.held h _ hh)
    exact absurd (hb.fresh _ f hf) (lt_irrefl _)

/-- `get_or_create` gives the holder a reference. -/
theorem Base.acquire (hb : Base hash exact s) (n : Path) {h : Holder} (hfree : s.heldBy h = none) :
    ∃ p F', s.files.getOrCreate hash n = .ok (p, F') ∧
      ∀ s' : State, s'.files = F' → s'.heldBy h = some p →
        (∀ h', h' ≠ h → s'.heldBy h' = s.heldBy h') → s'.fault = s.fault → Base hash exact s' := by
  obtain ⟨p, F', g, m, hrun, hrep, hheap, hmem, hfresh, hlt, hm, hle, hex⟩ :=
    hb.getOrCreate_counted n
  refine ⟨p, F', hrun, fun s' hfiles hself hother hfault => ?_⟩
  subst hfiles
  -- the holder is the only one that `p` gets
  have hholder : ∀ h', s'.heldBy h' = some p ↔ s.heldBy h' = some p ∨ h' = h := by
    intro h'
    by_cases hh' : h' = h
    · simp [hh', hself]
    · simp [hh', hother h' hh']
  have hothers : ∀ q, q ≠ p → ∀ h', s'.heldBy h' = some q ↔ s.heldBy h' = some q := by
    intro q hq h'
    by_cases hh' : h' = h
    · rw [hh', hself, hfree]
      simp [Ne.symm hq]
    · rw [hother h' hh']
  refine ⟨hrep, fun q f hf => ?_, fun q => ?_, fun q f hf => ?_, fun h' q hq => ?_,
    hfault ▸ hb.check⟩
  · rw [hheap, Function.update_apply] at hf
    split at hf
    · rename_i hq
      rw [hq]
      exact hlt
    · exact lt_of_lt_of_le (hb.fresh q f hf) hfresh
  · rw [hmem q, hb.mem q, hheap, Function.update_apply]
    split
    · rename_i hq
      simp [hq]
    · rename_i hq
      simp [hq]
  · rw [hheap, Function.update_apply] at hf
    split at hf
    · rename_i hq
      subst hq
      cases hf
      exact ⟨lt_of_lt_of_le (Nat.succ_pos m) hle, m + 1,
        hm.add (i := h) (by rw [hfree]; simp) hholder, hle, hex⟩
    · rename_i hq
      obtain ⟨hpos, k, hk, hle, hex⟩ := hb.counted q f hf
      exact ⟨hpos, k, hk.congr (hothers q hq), hle, hex⟩
  · rw [hheap, Function.update_apply]
    split
    · simp
    · rename_i hqp
      exact hb.held h' q ((hothers q hqp h').mp hq)

/-- `try_to_remove` takes the holder's reference back. -/
theorem Base.release (hb : Base hash exact s) {h : Holder} (hp : s.heldBy h = some p) :
    ∃ F', s.files.tryToRemove hash p = .ok F' ∧
      ∀ s' : State, s'.files = F' → s'.heldBy h = none →
        (∀ h', h' ≠ h → s'.heldBy h' = s.heldBy h') → s'.fault = s.fault → Base hash exact s' := by
  obtain ⟨f, hf, hmemp, hpos⟩ := hb.live hp
  obtain ⟨F', hrun, hrep, hfresh, -, hcases⟩ := hb.rep.tryToRemove hmemp hf hpos
  refine ⟨F', hrun, fun s' hfiles hself hother hfault => ?_⟩
  subst hfiles
  obtain ⟨-, n, hn, hle, hex⟩ := hb.counted p f hf
  have hholders : ∀ q h', s'.heldBy h' = some q ↔ s.heldBy h' = some q ∧ ¬ (q = p ∧ h' = h) := by
    intro q h'
    by_cases hh' : h' = h
    · rw [hh', hself, hp]
      simp only [reduceCtorEq, Option.some.injEq, and_true, false_iff, not_and, not_not]
      exact fun hq => hq.symm
    · simp [hother h' hh', hh']
  have hself' : Counted (fun h' => s'.heldBy h' = some p) (n - 1) :=
    hn.remove (i := h) hp fun h' => by simp [hholders]
  -- the object has one reference less, or it is gone with its last one
  obtain ⟨o, hheap, hmem, hsome, hnone⟩ : ∃ o, s'.files.heap = Function.update s.files.heap p o ∧
      (∀ q, s'.files.table.Mem q ↔ Function.update s.files.heap p o q ≠ none) ∧
      (∀ g, o = some g → 1 < f.referenceCount ∧ g.referenceCount = f.referenceCount - 1) ∧
      (o = none → f.referenceCount = 1) := by
    obtain ⟨hmore, hF'⟩ | ⟨hone, hheap, hmem⟩ := hcases
    · refine ⟨some { f with referenceCount := f.referenceCount - 1 }, by rw [hF']; rfl,
        fun q => ?_, fun g hg => ?_, fun hnone => by cases hnone⟩
      · rw [hF', Files.set_table, Function.update_apply]
        split
        · rename_i hq
          simp [hq, hmemp]
        · exact hb.mem q
      · cases hg
        exact ⟨hmore, rfl⟩
    · refine ⟨none, hheap, fun q => ?_, fun g hg => (by cases hg), fun _ => hone⟩
      rw [hmem q, hb.mem q, Function.update_apply]
      split
      · rename_i hq
        simp [hq]
      · rename_i hq
        simp [hq]
  refine ⟨hrep, fun q g hg => ?_, fun q => by rw [hmem q, hheap], fun q g hg => ?_,
    fun h' q hq => ?_, hfault ▸ hb.check⟩
  · rw [hheap, Function.update_apply] at hg
    rw [hfresh]
    split at hg
    · rename_i hq
      rw [hq]
      exact hb.fresh p f hf
    · exact hb.fresh q g hg
  · rw [hheap, Function.update_apply] at hg
    split at hg
    · rename_i hq
      subst hq
      obtain ⟨hmore, hg⟩ := hsome g hg
      rw [hg]
      refine ⟨Nat.sub_pos_of_lt hmore, n - 1, hself', Nat.sub_le_sub_right hle 1, fun he => ?_⟩
      rw [hex he]
    · rename_i hq
      obtain ⟨hpos, m, hm, hle, hex⟩ := hb.counted q g hg
      exact ⟨hpos, m, hm.congr fun h' => by simp [hholders, hq], hle, hex⟩
  · obtain ⟨hold, hne⟩ := (hholders q h').mp hq
    rw [hheap, Function.update_apply]
    split
    · -- with the last reference gone nobody else holds the file
      rename_i hqp
      subst hqp
      intro hgone
      have hone := hnone hgone
      have hpos' := hn.pos hp
      have hn1 : n = 1 := by omega
      rw [hn1] at hn
      exact absurd ⟨rfl, hn.unique le_rfl hold hp⟩ hne
    · exact hb.held h' q hold

/-- A holder that goes without giving its reference back. -/
theorem Base.leak (hb : Base hash exact s) (hex : ¬ exact) {h : Holder}
    (hfiles : s'.files = s.files) (hself : s'.heldBy h = none)
    (hother : ∀ h', h' ≠ h → s'.heldBy h' = s.heldBy h') (hfault : s'.fault = s.fault) :
    Base hash exact s' := by
  have hheld : ∀ h' q, s'.heldBy h' = some q → s.heldBy h' = some q := by
    intro h' q hq
    by_cases hh' : h' = h
    · rw [hh', hself] at hq
      cases hq
    · rwa [hother h' hh'] at hq
  refine ⟨hfiles ▸ hb.rep, hfiles ▸ hb.fresh, hfiles ▸ hb.mem, fun q g hg => ?_, fun h' q hq => ?_,
    hfault ▸ hb.check⟩
  · rw [hfiles] at hg
    obtain ⟨hpos, n, hn, hle, -⟩ := hb.counted q g hg
    refine ⟨hpos, ?_⟩
    by_cases hhq : s.heldBy h = some q
    · refine ⟨n - 1, hn.remove (i := h) hhq fun h' => ?_, by omega, fun he => absurd he hex⟩
      by_cases hh' : h' = h
      · simp [hh', hself]
      · simp [hother h' hh', hh']
    · refine ⟨n, hn.congr fun h' => ?_, hle, fun he => absurd he hex⟩
      by_cases hh' : h' = h
      · rw [hh', hself]
        simp [hhq]
      · rw [hother h' hh']
  · rw [hfiles]
    exact hb.held h' q (hheld h' q hq)

/-- A `rename` in the table to a name that no other file has. -/
theorem Base.rename (hb : Base hash exact s) (hf : s.files.heap p = some f) {m dest : Path}
    {o : RenameOutcome} (hreal : o.realpath = some m) (hren : o.renamed = true)
    (hdest : f.destinationFile.isSome)
    (hno : ∀ q, s.files.table.Mem q → s.files.name q = some m → q = p) :
    ∃ F', s.files.rename hash p dest o = .ok (true, F') ∧
      F'.heap = Function.update s.files.heap p (some (f.renamed dest o)) ∧
      Base hash exact { s with files := F' } := by
  have hmem : s.files.table.Mem p := (hb.mem p).mpr (by rw [hf]; simp)
  obtain ⟨F', hrun, hrep, hmem'⟩ := hb.rep.rename hmem hf dest hreal hren hdest hno
  obtain ⟨hfresh, -, -, g, hg, -, hheap⟩ := Files.rename_heap hrun
  rw [hf] at hg
  cases hg
  have hlive : ∀ q, F'.heap q = none ↔ s.files.heap q = none := by
    intro q
    rw [hheap, Function.update_apply]
    split
    · rename_i hq
      simp [hq, hf]
    · rfl
  have hold : ∀ q g, F'.heap q = some g →
      ∃ g', s.files.heap q = some g' ∧ g.referenceCount = g'.referenceCount := by
    intro q g hq
    rw [hheap, Function.update_apply] at hq
    split at hq
    · rename_i hqp
      cases hq
      exact ⟨f, by rw [hqp, hf], rfl⟩
    · exact ⟨g, hq, rfl⟩
  refine ⟨F', hrun, hheap, hrep, fun q g hg => ?_, fun q => ?_, fun q g hg => ?_, fun h q hq => ?_,
    hb.check⟩
  · obtain ⟨g', hg', -⟩ := hold q g hg
    rw [show ({ s with files := F' } : State).files.fresh = F'.fresh from rfl, hfresh]
    exact hb.fresh q g' hg'
  · rw [show ({ s with files := F' } : State).files = F' from rfl, hmem' q, hb.mem q]
    exact not_congr (hlive q).symm
  · obtain ⟨g', hg', hc⟩ := hold q g hg
    rw [hc]
    exact hb.counted q g' hg'
  · exact fun hnone => hb.held h q hq ((hlive q).mp hnone)

/-- A step that faults, but not in a check. -/
theorem Base.stop (hb : Base hash exact s) {e : Fault} (he : e ≠ .check) :
    Base hash exact { s with fault := some e } :=
  ⟨hb.rep, hb.fresh, hb.mem, hb.counted, hb.held, by simpa using he⟩

/-- A section keeps the invariant when its result does and its faults are not in checks. -/
theorem Base.attempt {α : Type} (hb : Base hash exact s) {x : Except Fault α} {k : α → State}
    (hx : Yields (fun e => e ≠ .check) (fun a => Base hash exact (k a)) x) :
    Base hash exact (s.attempt x k) := by
  cases x with
  | error e => exact hb.stop hx
  | ok a => exact hx

end

end TokuBackup.Lifecycle
