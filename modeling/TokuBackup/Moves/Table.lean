import TokuBackup.Moves.Steps

/-!
# The file table under the steps

The source files in use stay those of the table, one for each name. Only the capture could put
two of one name there: when both names of the rename have a source file.
-/

namespace TokuBackup.Moves

open Kernel

variable {D : DirectorySet} {old new : Path} {s s' : State} {a : Action} {id : Nat}
  {file file' : SourceFile} {name : List Path}

namespace Consistent

/-- Source files of one name are one. -/
theorem unique (hC : Consistent s) {id' : Nat} (hfile : s.heap id = some file)
    (hfile' : s.heap id' = some file') (hname : file'.name = file.name) : id' = id := by
  have h := hC.listed id file hfile
  have h' := hC.listed id' file' hfile'
  rw [hname, h] at h'
  exact (List.cons.inj h').1.symm

theorem same (hC : Consistent s) (hheap : s'.heap = s.heap) (htable : s'.table = s.table)
    (hfiles : s'.files = s.files) (hpc : ∀ id, s'.pc.file = some id → s.pc.file = some id) :
    Consistent s' where
  listed := by
    rw [hheap, htable]
    exact hC.listed
  named := by
    rw [hheap, htable]
    exact hC.named
  counted := by
    rw [hheap]
    exact hC.counted
  fresh := by
    rw [hheap, hfiles]
    exact hC.fresh
  held id hid := by
    rw [hheap]
    exact hC.held id (hpc id hid)

/-- A source file is changed, but for its name. -/
theorem change (hC : Consistent s) (hfile : s.heap id = some file)
    (hheap : s'.heap = Function.update s.heap id (some file')) (hname : file'.name = file.name)
    (hrefs : 1 ≤ file'.references) (htable : s'.table = s.table) (hfiles : s'.files = s.files)
    (hpc : ∀ id', s'.pc.file = some id' → id' = id ∨ s.pc.file = some id') : Consistent s' where
  listed id' f hf := by
    rw [hheap, Function.update_apply] at hf
    rw [htable]
    split at hf
    · rename_i hid
      cases hf
      rw [hname, hid]
      exact hC.listed id file hfile
    · exact hC.listed id' f hf
  named n id' hid' := by
    rw [htable] at hid'
    obtain ⟨f, hf, hn⟩ := hC.named n id' hid'
    rw [hheap, Function.update_apply]
    split
    · rename_i hid
      rw [hid, hfile] at hf
      cases hf
      exact ⟨file', rfl, hname.trans hn⟩
    · exact ⟨f, hf, hn⟩
  counted id' f hf := by
    rw [hheap, Function.update_apply] at hf
    split at hf
    · cases hf
      exact hrefs
    · exact hC.counted id' f hf
  fresh id' f hf := by
    rw [hheap, Function.update_apply] at hf
    rw [hfiles]
    split at hf
    · rename_i hid
      rw [hid]
      exact hC.fresh id file hfile
    · exact hC.fresh id' f hf
  held id' hid' := by
    rw [hheap, Function.update_apply]
    split
    · exact ⟨file', rfl⟩
    · rename_i hne
      exact hC.held id' ((hpc id' hid').resolve_left hne)

/-- A new source file. -/
theorem add (hC : Consistent s) (hname : s.table name = [])
    (hheap : s'.heap = Function.update s.heap s.files (some ⟨name, 1, none⟩))
    (htable : s'.table = Function.update s.table name (s.files :: s.table name))
    (hfiles : s'.files = s.files + 1)
    (hpc : ∀ id, s'.pc.file = some id → id = s.files ∨ s.pc.file = some id) : Consistent s' where
  listed id f hf := by
    rw [hheap, Function.update_apply] at hf
    rw [htable, Function.update_apply]
    split at hf
    · rename_i hid
      cases hf
      rw [if_pos rfl, hname, hid]
    · rw [if_neg]
      · exact hC.listed id f hf
      · intro hn
        have hlisted := hC.listed id f hf
        rw [hn, hname] at hlisted
        cases hlisted
  named n id hid := by
    rw [htable, Function.update_apply] at hid
    rw [hheap, Function.update_apply]
    split at hid
    · rename_i hn
      rw [hname, List.mem_singleton] at hid
      rw [if_pos hid]
      exact ⟨_, rfl, hn.symm⟩
    · obtain ⟨f, hf, hn⟩ := hC.named n id hid
      rw [if_neg]
      · exact ⟨f, hf, hn⟩
      · rintro rfl
        rw [hC.heap_files] at hf
        cases hf
  counted id f hf := by
    rw [hheap, Function.update_apply] at hf
    split at hf
    · cases hf
      exact Nat.le_refl 1
    · exact hC.counted id f hf
  fresh id f hf := by
    rw [hheap, Function.update_apply] at hf
    rw [hfiles]
    split at hf
    · rename_i hid
      rw [hid]
      exact Nat.lt_succ_self _
    · exact Nat.lt_succ_of_lt (hC.fresh id f hf)
  held id hid := by
    rw [hheap, Function.update_apply]
    split
    · exact ⟨_, rfl⟩
    · rename_i hne
      exact hC.held id ((hpc id hid).resolve_left hne)

/-- A source file goes. -/
theorem drop (hC : Consistent s) (hfile : s.heap id = some file)
    (hheap : s'.heap = Function.update s.heap id none)
    (htable : s'.table = Function.update s.table file.name (s.table file.name).tail)
    (hfiles : s'.files = s.files) (hpc : s'.pc.file = none) : Consistent s' where
  listed id' f hf := by
    rw [hheap, Function.update_apply] at hf
    rw [htable, Function.update_apply]
    split at hf
    · cases hf
    · rename_i hne
      rw [if_neg fun hn => hne (hC.unique hfile hf hn)]
      exact hC.listed id' f hf
  named n id' hid' := by
    rw [htable, Function.update_apply] at hid'
    split at hid'
    · rw [hC.listed id file hfile] at hid'
      cases hid'
    · rename_i hn
      obtain ⟨f, hf, hname⟩ := hC.named n id' hid'
      rw [hheap, Function.update_apply, if_neg]
      · exact ⟨f, hf, hname⟩
      · rintro rfl
        rw [hfile] at hf
        cases hf
        exact hn hname.symm
  counted id' f hf := by
    rw [hheap, Function.update_apply] at hf
    split at hf
    · cases hf
    · exact hC.counted id' f hf
  fresh id' f hf := by
    rw [hheap, Function.update_apply] at hf
    rw [hfiles]
    split at hf
    · cases hf
    · exact hC.fresh id' f hf
  held id' hid' := by
    rw [hpc] at hid'
    cases hid'

/-- A source file gets a name that no other one has. -/
theorem move (hC : Consistent s) {newName : List Path} (hfile : s.heap id = some file)
    (hheap : s'.heap = Function.update s.heap id (some file')) (hname : file'.name = newName)
    (hrefs : 1 ≤ file'.references) (hfree : s.table newName = [])
    (htable : s'.table = Function.update (Function.update s.table file.name
      (s.table file.name).tail) newName [id])
    (hfiles : s'.files = s.files) (hpc : s'.pc = s.pc) : Consistent s' where
  listed id' f hf := by
    rw [hheap, Function.update_apply] at hf
    rw [htable, Function.update_apply]
    split at hf
    · rename_i hid
      cases hf
      rw [if_pos hname, hid]
    · rename_i hne
      have hlisted := hC.listed id' f hf
      rw [if_neg, Function.update_apply, if_neg fun hn => hne (hC.unique hfile hf hn)]
      · exact hlisted
      · intro hn
        rw [hn, hfree] at hlisted
        cases hlisted
  named n id' hid' := by
    rw [htable, Function.update_apply] at hid'
    rw [hheap, Function.update_apply]
    split at hid'
    · rename_i hn
      rw [List.mem_singleton] at hid'
      rw [if_pos hid']
      exact ⟨file', rfl, hname.trans hn.symm⟩
    · rw [Function.update_apply] at hid'
      split at hid'
      · rw [hC.listed id file hfile] at hid'
        cases hid'
      · rename_i hn
        obtain ⟨f, hf, hfn⟩ := hC.named n id' hid'
        rw [if_neg]
        · exact ⟨f, hf, hfn⟩
        · rintro rfl
          rw [hfile] at hf
          cases hf
          exact hn hfn.symm
  counted id' f hf := by
    rw [hheap, Function.update_apply] at hf
    split at hf
    · cases hf
      exact hrefs
    · exact hC.counted id' f hf
  fresh id' f hf := by
    rw [hheap, Function.update_apply] at hf
    rw [hfiles]
    split at hf
    · rename_i hid
      rw [hid]
      exact hC.fresh id file hfile
    · exact hC.fresh id' f hf
  held id' hid' := by
    rw [hpc] at hid'
    rw [hheap, Function.update_apply]
    split
    · exact ⟨file', rfl⟩
    · exact hC.held id' hid'

/-- The number of a source file has been used up. -/
theorem release (hC : Consistent s) (hheap : s'.heap = s.heap) (htable : s'.table = s.table)
    (hfiles : s'.files = s.files + 1) (hpc : s'.pc = s.pc) : Consistent s' where
  listed := by
    rw [hheap, htable]
    exact hC.listed
  named := by
    rw [hheap, htable]
    exact hC.named
  counted := by
    rw [hheap]
    exact hC.counted
  fresh id f hf := by
    rw [hheap] at hf
    rw [hfiles]
    exact Nat.lt_succ_of_lt (hC.fresh id f hf)
  held := by
    rw [hheap, hpc]
    exact hC.held

/-- One step, when a capture that moves a source file finds only one of the names in the
table. -/
theorem advance (hC : Consistent s) (h : Advance D old new s a s')
    (hne : components old ≠ components new)
    (hfree : a = .capture → (∃ entry, s'.mover = .pushing entry) →
      s.table (components old) = [] ∨ s.table (components new) = []) : Consistent s' := by
  cases h with
  | startDirectory => exact hC.same rfl rfl rfl fun _ hid => by cases hid
  | finish => exact hC.same rfl rfl rfl fun _ hid => by cases hid
  | endDirectory => exact hC.same rfl rfl rfl fun _ hid => by cases hid
  | exclude => exact hC.same rfl rfl rfl fun _ hid => by cases hid
  | vanish => exact hC.same rfl rfl rfl fun _ hid => by cases hid
  | find => exact hC.same rfl rfl rfl fun _ hid => by cases hid
  | scanOld => exact hC.same rfl rfl rfl fun _ hid => by cases hid
  | scanNew => exact hC.same rfl rfl rfl fun _ hid => by cases hid
  | list => exact hC.same rfl rfl rfl fun _ hid => by cases hid
  | attachOld _ _ _ hfile =>
    refine hC.change hfile rfl rfl (Nat.le_add_left 1 _) rfl rfl fun id hid => Or.inl ?_
    cases hid
    rfl
  | attachNew _ _ htable => exact hC.add htable rfl rfl rfl fun id hid => Or.inl (by cases hid; rfl)
  | openFile hpc =>
    refine hC.same rfl rfl rfl fun id hid => ?_
    rw [hpc]
    exact hid
  | openGone hpc =>
    refine hC.same rfl rfl rfl fun id hid => ?_
    rw [hpc]
    exact hid
  | createGone hpc =>
    refine hC.same rfl rfl rfl fun id hid => ?_
    rw [hpc]
    exact hid
  | create hpc _ _ hfile hprov =>
    have hrefs := hC.counted _ _ hfile
    have honly := hprov.only
    refine hC.change hfile (congrFun (congrFun (congrArg Function.update honly.heap) _) _) rfl
      hrefs honly.table honly.files fun id hid => Or.inl ?_
    cases hid
    rfl
  | endOfFile hpc =>
    refine hC.same rfl rfl rfl fun id hid => ?_
    rw [hpc]
    exact hid
  | copyChunk hpc _ _ hfile =>
    have hrefs := hC.counted _ _ hfile
    refine hC.change hfile rfl rfl hrefs rfl rfl fun id hid => Or.inl ?_
    cases hid
    rfl
  | unhookShared hpc =>
    refine hC.same rfl rfl rfl fun id hid => ?_
    rw [hpc]
    exact hid
  | unhook hpc hfile =>
    have hrefs := hC.counted _ _ hfile
    refine hC.change hfile rfl rfl hrefs rfl rfl fun id hid => Or.inl ?_
    cases hid
    rfl
  | releaseShared hpc hfile hmore =>
    exact hC.change hfile rfl rfl (Nat.le_sub_one_of_lt hmore) rfl rfl fun _ hid => by cases hid
  | releaseLast hpc hfile => exact hC.drop hfile rfl rfl rfl rfl
  | rename => exact hC.same rfl rfl rfl fun _ hid => hid
  | ignore => exact hC.same rfl rfl rfl fun _ hid => hid
  | refuseOld _ _ _ _ hfile =>
    exact hC.change hfile rfl rfl (Nat.le_add_left 1 _) rfl rfl fun _ hid => Or.inr hid
  | refuseNew _ _ _ htable => exact hC.add htable rfl rfl rfl fun _ hid => Or.inr hid
  | @moveOld oldDest newDest id rest file s₁ dest s₂ _ _ _ htable hfile hprov hmove =>
    have honly := hprov.only.trans (renameBackup_only hmove)
    have hrefs := hC.counted _ _ hfile
    obtain ⟨f, hf, hname⟩ :=
      hC.named (components old) id (by rw [htable]; exact List.mem_cons_self)
    rw [hfile] at hf
    cases hf
    have hnew : s.table (components new) = [] := by
      apply (hfree rfl ⟨newDest, rfl⟩).resolve_left
      rw [htable]
      exact List.cons_ne_nil _ _
    refine hC.move hfile (congrFun (congrFun (congrArg Function.update honly.heap) _) _) rfl hrefs
      hnew ?_ honly.files honly.pc
    dsimp only [State.put, State.setFile, State.remove]
    rw [honly.table, hname, Function.update_of_ne (Ne.symm hne), hnew]
  | moveNew _ _ _ _ hprov hmove =>
    have honly := hprov.only.trans (renameBackup_only hmove)
    exact hC.release honly.heap honly.table rfl honly.pc
  | push => exact hC.same rfl rfl rfl fun _ hid => hid
  | endSession => exact hC.same rfl rfl rfl fun _ hid => hid

end Consistent

end TokuBackup.Moves
