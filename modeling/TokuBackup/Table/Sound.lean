import TokuBackup.Lib.Machine
import TokuBackup.Table.Operations

/-!
# The table over whole runs

Sequences of the operations on one table. `get` and `remove` search by name, so the table
stays sound as long as no operation brings a second file of one name in: a file that is
put, a file that is renamed, and a file whose last reference goes while it is out of the
table must not meet another file with their name. `rename_locked` does not look; renaming
a file onto a path that is open breaks the table.
-/

namespace TokuBackup.Table

open Kernel Lib

/-! ## The machine -/

inductive Op where
  /-- `new source_file(name)`. -/
  | newFile (name : Path)
  | getOrCreate (name : Path)
  /-- `put` of a live file. -/
  | put (file : Ptr)
  | renameLocked (old_path old_dest dest_path : Path) (o : RenameOutcome)
  /-- `try_to_remove` by a caller that holds a reference. -/
  | tryToRemove (file : Ptr)

section

variable (hash : Path → Nat)

def stepTable : Except Fault Files → Op → Option (Except Fault Files)
  | .error _, _ => none
  | .ok F, .newFile name => some (.ok (F.allocate name).2)
  | .ok F, .getOrCreate name => some ((F.getOrCreate hash name).map Prod.snd)
  | .ok F, .put file => if (F.heap file).isSome then some (F.put hash file) else none
  | .ok F, .renameLocked old_path old_dest dest_path o =>
    some ((F.renameLocked hash old_path old_dest dest_path o).map Prod.snd)
  | .ok F, .tryToRemove file =>
    if (F.heap file).any fun f => 0 < f.referenceCount then some (F.tryToRemove hash file) else none

/-! ## The condition on the steps -/

/-- `get` of the name finds no file but this one. -/
def Files.Alone (F : Files) (file : Ptr) (n : Path) : Prop :=
  F.get hash n = .ok none ∨ F.get hash n = .ok (some file)

/-- The file has a name, and no other file is found under it. -/
def Files.NamedAlone (F : Files) (file : Ptr) : Prop := ∃ n ∈ F.name file, F.Alone hash file n

/-- More than `n` references to the file are held. -/
def Files.Referenced (F : Files) (n : Nat) (file : Ptr) : Prop :=
  ∃ f ∈ F.heap file, n < f.referenceCount

/-- `rename_locked` brings no second file of one name in: no file is found under the new
name, unless it is the old one, or the rename fails while others hold the target. -/
def Files.RenameAlone (F : Files) (old_path : Path) (o : RenameOutcome) : Prop :=
  (∃ m ∈ o.realpath, m = old_path ∨ F.get hash m = .ok none) ∨
    ((o.realpath = none ∨ o.renamed = false) ∧
      ∃ q ∈ (F.get hash old_path).toOption.join, F.Referenced 0 q)

/-- The condition on an operation and the state before it. -/
def OpOk : Except Fault Files → Op → Prop
  | .ok F, .put file => F.NamedAlone hash file
  | .ok F, .renameLocked old_path _ _ o => F.RenameAlone hash old_path o
  | .ok F, .tryToRemove file => F.Referenced 1 file ∨ F.NamedAlone hash file
  | _, _ => True

instance decidableNamedAlone (F : Files) (file : Ptr) : Decidable (F.NamedAlone hash file) := by
  unfold Files.NamedAlone Files.Alone
  infer_instance

instance decidableReferenced (F : Files) (n : Nat) (file : Ptr) :
    Decidable (F.Referenced n file) := by
  unfold Files.Referenced
  infer_instance

instance decidableOpOk : ∀ s op, Decidable (OpOk hash s op)
  | .ok F, .put file => decidableNamedAlone hash F file
  | .ok F, .renameLocked old_path _ _ o => by
    unfold OpOk Files.RenameAlone
    infer_instance
  | .ok F, .tryToRemove file =>
    inferInstanceAs (Decidable (F.Referenced 1 file ∨ F.NamedAlone hash file))
  | .ok _, .newFile _ => isTrue trivial
  | .ok _, .getOrCreate _ => isTrue trivial
  | .error _, _ => isTrue trivial

end

/-- No file of the table has the name. -/
def Files.Free (F : Files) (n : Path) : Prop := ∀ q, F.table.Mem q → F.name q ≠ some n

/-! ## The invariant -/

structure Sound (hash : Path → Nat) (F : Files) : Prop where
  rep : Rep hash F
  fresh : ∀ p f, F.heap p = some f → p < F.fresh
  linked : ∀ p f, F.heap p = some f → f.unlinked = false

section

variable {hash : Path → Nat} {F F' : Files} {p : Ptr} {n : Path} {f : SourceFile}

theorem sound_new : Sound hash Files.new := by
  refine ⟨rep_new, ?_, ?_⟩
  · intro p f hf
    cases hf
  · intro p f hf
    cases hf

theorem Sound.free (h : Sound hash F) (hget : F.get hash n = .ok none) : F.Free n := by
  intro q hq hn
  rw [h.rep.get_some hq hn] at hget
  cases hget

theorem Sound.mem (h : Sound hash F) (hget : F.get hash n = .ok (some p)) : F.table.Mem p := by
  rcases h.rep.get_cases n with ⟨q, hq, -, hq'⟩ | ⟨-, hno⟩
  · rw [hget] at hq'
    cases hq'
    exact hq
  · rw [hget] at hno
    cases hno

/-- A sound table after an operation that changes one object at most. -/
theorem Sound.update (h : Sound hash F) {o : Option SourceFile} (hrep : Rep hash F')
    (hheap : F'.heap = Function.update F.heap p o) (hfresh : F.fresh ≤ F'.fresh)
    (hp : o.isSome → p < F'.fresh) (hlinked : ∀ f, o = some f → f.unlinked = false) :
    Sound hash F' := by
  refine ⟨hrep, fun q g hg => ?_, fun q g hg => ?_⟩
  · rw [hheap, Function.update_apply] at hg
    split at hg
    · rename_i hqp
      rw [hqp]
      exact hp (by rw [hg]; rfl)
    · exact lt_of_lt_of_le (h.fresh q g hg) hfresh
  · rw [hheap, Function.update_apply] at hg
    split at hg
    · exact hlinked g hg
    · exact h.linked q g hg

theorem Sound.getOrCreate (h : Sound hash F) (n : Path) :
    ∃ p F' f, F.getOrCreate hash n = .ok (p, F') ∧ Sound hash F' ∧ F'.table.Mem p ∧
      F'.heap p = some f ∧ f.fullPath = some n ∧ 0 < f.referenceCount ∧
      (∀ q, q ≠ p → F'.heap q = F.heap q) ∧ (∀ q, F'.table.Mem q → q ≠ p → F.table.Mem q) ∧
      ((∃ q g, F.table.Mem q ∧ F.heap q = some g ∧ g.fullPath = some n ∧ 0 < g.referenceCount) →
        1 < f.referenceCount) := by
  obtain ⟨p, F', hrun, hrep, hcases⟩ := h.rep.getOrCreate n
  rcases hcases with ⟨hp, f, hf, hname, rfl⟩ | ⟨hno, rfl, hfresh, -, hheap, hmem⟩
  · refine ⟨p, _, _, hrun, ?_, hp, Function.update_self _ _ _, hname, Nat.succ_pos _,
      fun q hq => Function.update_of_ne hq _ _, fun q hq _ => hq, ?_⟩
    · refine h.update hrep (Files.set_heap _) le_rfl (fun _ => h.fresh p f hf) ?_
      rintro _ ⟨⟩
      exact h.linked p f hf
    · rintro ⟨q, g, hq, hg, hgn, hpos⟩
      have hqp : q = p := h.rep.inj q p n hq hp
        (by rw [Files.name_of_heap hg, hgn]) (by rw [Files.name_of_heap hf, hname])
      subst hqp
      rw [hf] at hg
      cases hg
      exact Nat.succ_lt_succ hpos
  · refine ⟨F.fresh, F', ⟨some n, 1, false, none⟩, hrun, ?_, (hmem _).mpr (Or.inr rfl), ?_, rfl,
      Nat.one_pos, ?_, ?_, ?_⟩
    · refine h.update hrep hheap (by rw [hfresh]; exact Nat.le_succ _)
        (fun _ => by rw [hfresh]; exact Nat.lt_succ_self _) ?_
      rintro _ ⟨⟩
      rfl
    · rw [hheap, Function.update_self]
    · intro q hq
      rw [hheap, Function.update_of_ne hq]
    · intro q hq hqp
      exact ((hmem q).mp hq).resolve_right hqp
    · rintro ⟨q, g, hq, hg, hgn, -⟩
      exact absurd (by rw [Files.name_of_heap hg, hgn]) (hno q hq)

theorem Sound.put (h : Sound hash F) (hlive : (F.heap p).isSome)
    (hok : F.NamedAlone hash p) : ∃ F', F.put hash p = .ok F' ∧ Sound hash F' := by
  obtain ⟨f, hf⟩ := Option.isSome_iff_exists.mp hlive
  obtain ⟨n, hn, hget⟩ := hok
  by_cases hp : F.table.Mem p
  · exact ⟨F, h.rep.put_mem hp, h⟩
  · have hfree := h.free (hget.resolve_right fun hsome => hp (h.mem hsome))
    obtain ⟨T', hrun, hrep, -⟩ := h.rep.put_new hn (h.fresh p f hf) hp hfree
    exact ⟨_, hrun, hrep, h.fresh, h.linked⟩

theorem Sound.tryToRemove (h : Sound hash F) (hf : F.heap p = some f)
    (hpos : 0 < f.referenceCount)
    (hok : F.table.Mem p ∨ 1 < f.referenceCount ∨ ∃ n, f.fullPath = some n ∧ F.Free n) :
    ∃ F', F.tryToRemove hash p = .ok F' ∧ Sound hash F' := by
  have hrun : ∃ F', F.tryToRemove hash p = .ok F' ∧ Rep hash F' := by
    by_cases hp : F.table.Mem p
    · obtain ⟨F', hrun, hrep, -⟩ := h.rep.tryToRemove hp hf hpos
      exact ⟨F', hrun, hrep⟩
    · obtain ⟨F', hrun, hrep, -⟩ := h.rep.tryToRemove_absent hp hf hpos fun hone => by
        rcases hok.resolve_left hp with hmore | hfree
        · omega
        · exact hfree
      exact ⟨F', hrun, hrep⟩
  obtain ⟨F', hrun, hrep⟩ := hrun
  obtain ⟨hfresh, -, g, hg, -, hcases⟩ := Files.tryToRemove_heap hrun
  rw [hf] at hg
  cases hg
  refine ⟨F', hrun, ?_⟩
  rcases hcases with ⟨-, rfl⟩ | ⟨-, hheap⟩
  · refine h.update hrep (Files.set_heap _) le_rfl (fun _ => h.fresh p f hf) ?_
    rintro _ ⟨⟩
    exact h.linked p f hf
  · exact h.update hrep hheap hfresh.ge (by simp) (by simp)

/-- A file of the table gets a destination, or has one, if one can be created. -/
theorem Sound.tryToCreateDestinationFile (h : Sound hash F) (hf : F.heap p = some f)
    (path : Path) (created : Bool) :
    ∃ ok F', F.tryToCreateDestinationFile p path created = .ok (ok, F') ∧ Sound hash F' ∧
      F'.table = F.table ∧ (∀ q, F'.name q = F.name q) ∧
      ∃ g, F'.heap p = some g ∧ g.fullPath = f.fullPath ∧ g.referenceCount = f.referenceCount ∧
        (ok = true → g.destinationFile.isSome) := by
  have hlinked := h.linked p f hf
  obtain ⟨ok, F', hrun⟩ := Files.tryToCreateDestinationFile_live hf path created
  obtain ⟨g, hg, hfresh, htable, hcases⟩ := Files.tryToCreateDestinationFile_heap hrun
  rw [hf] at hg
  cases hg
  refine ⟨ok, F', hrun, ?_⟩
  rcases hcases with ⟨rfl, hdest, -⟩ | ⟨rfl, -, -, -, hheap⟩
  · refine ⟨h, rfl, fun q => rfl, f, hf, rfl, rfl, fun hok => ?_⟩
    exact (hdest hok).resolve_left (by rw [hlinked]; simp)
  · let g : SourceFile := { f with destinationFile := some ⟨F.freshDestination, path⟩ }
    have hname : ∀ q, F'.name q = F.name q := fun q => by
      rw [Files.name, hheap, ← Files.name_set_same (q := q) (g := g) hf rfl]
      rfl
    have hrep : Rep hash F' := h.rep.congr htable hfresh.ge fun q _ => hname q
    refine ⟨h.update hrep hheap hfresh.ge (fun _ => ?_) ?_, htable, hname, g, ?_, rfl, rfl,
      fun _ => rfl⟩
    · rw [hfresh]
      exact h.fresh p f hf
    · rintro _ ⟨⟩
      exact hlinked
    · rw [hheap, Function.update_self]

theorem Sound.renameLocked (h : Sound hash F) {old_path : Path} (old_dest dest_path : Path)
    {o : RenameOutcome} (hok : F.RenameAlone hash old_path o) :
    ∃ r F', F.renameLocked hash old_path old_dest dest_path o = .ok (r, F') ∧ Sound hash F' := by
  obtain ⟨p, F₁, f₁, hget, h₁, hp, hf₁, hn₁, hpos₁, hother, hmem, hheld⟩ := h.getOrCreate old_path
  obtain ⟨ok, F₂, hcreate, h₂, htable, hname, f₂, hf₂, hn₂, hcount, hdest⟩ :=
    h₁.tryToCreateDestinationFile hf₁ old_dest o.created
  have hp₂ : F₂.table.Mem p := by rwa [htable]
  cases ok with
  | false =>
    refine ⟨false, F₂, ?_, h₂⟩
    rw [Files.renameLocked, hget]
    simp only [ok_bind, hcreate]
    rfl
  | true =>
    -- every file of the table with the new name is the target
    have holder : ∀ m, (m = old_path ∨ F.get hash m = .ok none) →
        ∀ q, F.table.Mem q → F.name q = some m → m = old_path := by
      rintro m (hm | hget) q hq hqm
      · exact hm
      · exact absurd hqm (h.free hget q hq)
    have hfree : ∀ m, (∀ q, F.table.Mem q → F.name q = some m → m = old_path) →
        ∀ q, F₂.table.Mem q → F₂.name q = some m → q = p := by
      intro m hm q hq hqm
      by_contra hqp
      rw [htable] at hq
      rw [hname q, Files.name, hother q hqp, ← Files.name] at hqm
      have hold := hm q (hmem q hq hqp) hqm
      refine hqp (h₁.rep.inj q p m hq hp ?_ ?_)
      · rw [Files.name, hother q hqp, ← Files.name, hqm]
      · rw [Files.name_of_heap hf₁, hn₁, hold]
    have hpos₂ : 0 < f₂.referenceCount := by omega
    by_cases hfail : o.realpath = none ∨ o.renamed = false
    · obtain ⟨F₃, hrename, hrep₃, hmem₃, hheap₃⟩ :=
        h₂.rep.rename_fails hp₂ hf₂ dest_path hfail fun _ => hdest rfl
      have hframe := Files.rename_heap hrename
      have h₃ : Sound hash F₃ := by
        refine h₂.update hrep₃ hheap₃ hframe.1.ge (fun _ => ?_) ?_
        · rw [hframe.1]
          exact h₂.fresh p f₂ hf₂
        · rintro _ ⟨⟩
          exact h₂.linked p f₂ hf₂
      have hf₃ : F₃.heap p = some (f₂.renamed dest_path o) := by rw [hheap₃, Function.update_self]
      obtain ⟨F₄, hremove, h₄⟩ := h₃.tryToRemove hf₃ hpos₂ <| Or.inr <| by
        rcases hok with ⟨m, hm, hno⟩ | ⟨-, hheld'⟩
        · refine Or.inr ⟨m, hm, fun q hq hqm => ?_⟩
          obtain ⟨hq₂, hqp⟩ := (hmem₃ q).mp hq
          refine hqp (hfree m (holder m hno) q hq₂ ?_)
          rw [← hqm, Files.name_update hheap₃, if_neg hqp]
        · obtain ⟨q, hq, g, hg, hpos⟩ := hheld'
          have hqget : F.get hash old_path = .ok (some q) := by
            revert hq
            cases F.get hash old_path with
            | error e => simp [Except.toOption]
            | ok o => simp [Except.toOption]
          have hname := Files.name_of_get hqget
          rw [Files.name_of_heap hg] at hname
          refine Or.inl ?_
          rw [show (f₂.renamed dest_path o).referenceCount = f₂.referenceCount from rfl, hcount]
          exact hheld ⟨q, g, h.mem hqget, hg, hname, hpos⟩
      refine ⟨false, F₄, ?_, h₄⟩
      rw [Files.renameLocked, hget]
      simp only [ok_bind, hcreate, if_true, hrename, hremove]
      rfl
    · rw [not_or] at hfail
      obtain ⟨m, hm⟩ := Option.ne_none_iff_exists'.mp hfail.1
      have hren : o.renamed = true := by simpa using hfail.2
      have hno : ∀ q, F.table.Mem q → F.name q = some m → m = old_path := by
        rcases hok with ⟨m', hm', hno⟩ | ⟨hbad, -⟩
        · rw [hm] at hm'
          cases hm'
          exact holder m hno
        · rcases hbad with hnone | hfalse
          · exact absurd hnone hfail.1
          · exact absurd hfalse hfail.2
      obtain ⟨F₃, hrename, hrep₃, hmem₃⟩ :=
        h₂.rep.rename hp₂ hf₂ dest_path hm hren (hdest rfl) (hfree m hno)
      obtain ⟨hfresh₃, -, -, g, hg, -, hheap₃⟩ := Files.rename_heap hrename
      rw [hf₂] at hg
      cases hg
      have h₃ : Sound hash F₃ := by
        refine h₂.update hrep₃ hheap₃ hfresh₃.ge (fun _ => ?_) ?_
        · rw [hfresh₃]
          exact h₂.fresh p f₂ hf₂
        · rintro _ ⟨⟩
          exact h₂.linked p f₂ hf₂
      have hf₃ : F₃.heap p = some (f₂.renamed dest_path o) := by rw [hheap₃, Function.update_self]
      obtain ⟨F₄, hremove, h₄⟩ := h₃.tryToRemove hf₃ hpos₂ (Or.inl ((hmem₃ p).mpr hp₂))
      refine ⟨true, F₄, ?_, h₄⟩
      rw [Files.renameLocked, hget]
      simp only [ok_bind, hcreate, if_true, hrename, hremove]
      rfl

/-- One operation keeps the table sound, and does not fault. -/
theorem sound_step {r : Except Fault Files} {op : Op} (h : Sound hash F)
    (hok : OpOk hash (.ok F) op) (hstep : stepTable hash (.ok F) op = some r) :
    ∃ F', r = .ok F' ∧ Sound hash F' := by
  cases op with
  | newFile name =>
    cases hstep
    refine ⟨_, rfl, h.update (p := F.fresh) ?_ rfl (Nat.le_succ _) (fun _ => Nat.lt_succ_self _) ?_⟩
    · refine h.rep.congr rfl (Nat.le_succ _) fun q hq => ?_
      refine (Files.name_update (F := F) rfl).trans (if_neg ?_)
      rintro rfl
      exact absurd (h.rep.name_of_mem hq).1 (lt_irrefl _)
    · rintro _ ⟨⟩
      rfl
  | getOrCreate name =>
    obtain ⟨p, F', f, hrun, h', -⟩ := h.getOrCreate name
    simp only [stepTable, hrun] at hstep
    cases hstep
    exact ⟨F', rfl, h'⟩
  | put file =>
    simp only [stepTable] at hstep
    split at hstep
    · rename_i hlive
      obtain ⟨F', hrun, h'⟩ := h.put hlive hok
      cases hstep
      exact ⟨F', hrun, h'⟩
    · cases hstep
  | renameLocked old_path old_dest dest_path o =>
    obtain ⟨ok, F', hrun, h'⟩ := h.renameLocked old_dest dest_path hok
    simp only [stepTable, hrun] at hstep
    cases hstep
    exact ⟨F', rfl, h'⟩
  | tryToRemove file =>
    simp only [stepTable] at hstep
    split at hstep
    · rename_i hheld
      obtain ⟨f, hf, hpos⟩ := (Option.any_eq_true _ _).mp hheld
      obtain ⟨F', hrun, h'⟩ := h.tryToRemove hf (of_decide_eq_true hpos) <| by
        rcases hok with ⟨g, hg, hmore⟩ | ⟨n, hn, hnone | hsome⟩
        · cases hf.symm.trans hg
          exact Or.inr (Or.inl hmore)
        · refine Or.inr (Or.inr ⟨n, ?_, h.free hnone⟩)
          rw [← Files.name_of_heap hf]
          exact hn
        · exact Or.inl (h.mem hsome)
      cases hstep
      exact ⟨F', hrun, h'⟩
    · cases hstep

theorem sound_run {r : Except Fault Files} {ops : List Op}
    (hok : RunOk (stepTable hash) (OpOk hash) (.ok Files.new) ops)
    (hrun : run (stepTable hash) (.ok Files.new) ops = some r) : ∃ F, r = .ok F ∧ Sound hash F := by
  let Inv : Except Fault Files → Prop := fun r => ∃ F, r = .ok F ∧ Sound hash F
  have hstep : ∀ r op r', Inv r → OpOk hash r op → stepTable hash r op = some r' → Inv r' := by
    intro r op r' hr hop hstep
    obtain ⟨F, rfl, h⟩ := hr
    exact sound_step h hop hstep
  have hstart : Inv (.ok Files.new) := ⟨Files.new, rfl, sound_new⟩
  exact run_invariant hstep hstart hok hrun

/-! ## The main result -/

/-- What the table promises: no two files of it have one name, `remove` takes its file out
of the table and nothing else, no chain reaches a deleted file, and `m_count` is the number
of entries. -/
structure TableSound (hash : Path → Nat) (F : Files) : Prop where
  distinct : ∀ p q n, F.table.Mem p → F.table.Mem q → F.name p = some n → F.name q = some n → p = q
  remove : ∀ p, F.table.Mem p →
    ∃ F', F.remove hash p = .ok F' ∧ ∀ q, F'.table.Mem q ↔ F.table.Mem q ∧ q ≠ p
  live : ∀ p, F.table.Mem p → F.heap p ≠ none
  count : Counted F.table.Mem F.table.count

/-- In every run whose operations bring no second file of one name in, no operation faults
and the table stays sound. -/
theorem table_sound (hash : Path → Nat) {r : Except Fault Files} {ops : List Op}
    (hok : RunOk (stepTable hash) (OpOk hash) (.ok Files.new) ops)
    (hrun : run (stepTable hash) (.ok Files.new) ops = some r) :
    ∃ F, r = .ok F ∧ TableSound hash F := by
  obtain ⟨F, rfl, h⟩ := sound_run hok hrun
  refine ⟨F, rfl, h.rep.inj, fun p hp => ?_, fun p hp => ?_, h.rep.counted⟩
  · obtain ⟨T', hremove, -, hmem⟩ := h.rep.remove_mem hp
    exact ⟨_, hremove, hmem⟩
  · obtain ⟨-, n, hn⟩ := h.rep.name_of_mem hp
    obtain ⟨f, hf, -⟩ := live_of_name hn
    rw [hf]
    simp

end

/-- Two files, of which the second is renamed to a new name and closed. -/
def renameToNew : List Op :=
  [.getOrCreate ['a'], .getOrCreate ['b'],
    .renameLocked ['b'] ['x', 'b'] ['x', 'c'] ⟨true, some ['c'], true, false⟩, .tryToRemove 1]

theorem table_sound_renameToNew :
    ∃ F, run (stepTable List.length) (.ok Files.new) renameToNew = some (.ok F) ∧
      F.table.count = 1 ∧ TableSound List.length F := by
  have hok : RunOk (stepTable List.length) (OpOk List.length) (.ok Files.new) renameToNew := by
    decide +kernel
  have hrun : ∃ F, run (stepTable List.length) (.ok Files.new) renameToNew = some (.ok F) ∧
      F.table.count = 1 := ⟨_, rfl, rfl⟩
  obtain ⟨F, hrun, hcount⟩ := hrun
  obtain ⟨F', hF, hsound⟩ := table_sound List.length hok hrun
  cases hF
  exact ⟨F, hrun, hcount, hsound⟩

/-- Two open files; the first is renamed onto the second, and the second is closed. -/
def renameOntoOpen : List Op :=
  [.getOrCreate ['a'], .getOrCreate ['b'],
    .renameLocked ['a'] ['x', 'a'] ['x', 'b'] ⟨true, some ['b'], true, false⟩, .tryToRemove 1]

/-- The last operation takes the first file out of the chain and deletes the second, which
the chain still reaches. -/
theorem not_table_sound_renameOntoOpen :
    ∃ F, run (stepTable List.length) (.ok Files.new) renameOntoOpen = some (.ok F) ∧
      F.heap 1 = none ∧ ¬ TableSound List.length F :=
  ⟨_, rfl, rfl, fun h => h.live 1 ⟨1, by decide, Reaches.head 1⟩ rfl⟩

end TokuBackup.Table
