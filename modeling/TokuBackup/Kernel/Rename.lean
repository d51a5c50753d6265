import TokuBackup.Kernel.FileSystem

/-!
# Renaming a regular file

`rename` of a regular file puts it where no directory is, in the place of a file that was
there before. No directory comes or goes.
-/

namespace TokuBackup.Kernel.Fs

variable {fs fs' : Fs} {old new k : List Path}

/-- The new path lies in a directory, under a name that an entry may have. -/
def Placeable (fs : Fs) (new : List Path) : Prop :=
  fs.node new ≠ some .directory ∧ ∃ h : new ≠ [],
    fs.node new.dropLast = some .directory ∧ IsEntry (new.getLast h)

instance (fs : Fs) (new : List Path) : Decidable (fs.Placeable new) :=
  inferInstanceAs (Decidable (fs.node new ≠ some .directory ∧ ∃ h : new ≠ [],
    fs.node new.dropLast = some .directory ∧ IsEntry (new.getLast h)))

/-- The nodes after the rename. -/
def renamed (fs : Fs) (old new : List Path) (content : Content) :
    AList fun _ : List Path => Node :=
  (fs.nodes.erase old).insert new (.regular content)

theorem lookup_renamed {content : Content} :
    (fs.renamed old new content).lookup k =
      if k = new then some (.regular content) else if k = old then none else fs.node k := by
  rw [renamed]
  split
  · rename_i h
    rw [h, AList.lookup_insert]
  · rename_i h
    rw [AList.lookup_insert_ne h]
    split
    · rename_i h'
      rw [h', AList.lookup_erase]
    · rename_i h'
      rw [AList.lookup_erase_ne h']
      rfl

/-- `rename` of a regular file, when it succeeds. -/
def renameFile (fs : Fs) (old new : List Path) : Option Fs :=
  match h : fs.node old with
  | some (.regular content) =>
    if hnew : fs.Placeable new then
      some {
        nodes := fs.renamed old new content
        parent := by
          intro l n hln
          have hnode : fs.node l = some .directory ∧ IsEntry n := by
            rw [← AList.lookup_isSome, lookup_renamed] at hln
            split at hln
            · rename_i hl
              obtain ⟨-, hne, hdir, hname⟩ := hnew
              subst hl
              rw [List.dropLast_concat] at hdir
              rw [List.getLast_append_singleton] at hname
              exact ⟨hdir, hname⟩
            · split at hln
              · cases hln
              · exact fs.parent l n (mem_nodes.mpr (Option.isSome_iff_ne_none.mp hln))
          refine ⟨?_, hnode.2⟩
          rw [lookup_renamed, if_neg, if_neg]
          · exact hnode.1
          · rintro rfl
            rw [h] at hnode
            cases hnode.1
          · rintro rfl
            exact hnew.1 hnode.1 }
    else none
  | _ => none

theorem renameFile_some (h : fs.renameFile old new = some fs') :
    ∃ content, fs.node old = some (.regular content) ∧ fs.Placeable new ∧
      ∀ k, fs'.node k =
        if k = new then some (.regular content) else if k = old then none else fs.node k := by
  rw [renameFile] at h
  split at h
  · rename_i content hold
    split at h
    · rename_i hnew
      cases h
      exact ⟨content, hold, hnew, fun k => lookup_renamed⟩
    · cases h
  · cases h

/-- The directories are the same before and after. -/
theorem renameFile_directory (h : fs.renameFile old new = some fs') (k : List Path) :
    fs'.node k = some .directory ↔ fs.node k = some .directory := by
  obtain ⟨content, hold, ⟨hnew, -⟩, hnode⟩ := renameFile_some h
  rw [hnode]
  split
  · rename_i hk
    subst hk
    exact iff_of_false (by simp) hnew
  · split
    · rename_i hk
      subst hk
      exact iff_of_false (by simp) (by rw [hold]; simp)
    · exact Iff.rfl

end TokuBackup.Kernel.Fs
