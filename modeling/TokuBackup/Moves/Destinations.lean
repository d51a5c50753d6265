import TokuBackup.Moves.Table

/-!
# Who holds a destination

The destinations of the source files in use, and what the operations of the file table make of
them.
-/

namespace TokuBackup.Moves

open Kernel

/-- The source file `id` has this name and this destination. -/
def Holds (s : State) (id : Nat) (name : List Path) (dest : DestinationFile) : Prop :=
  ∃ file, s.heap id = some file ∧ file.name = name ∧ file.destination = some dest

variable {s s' : State} {id : Nat}
  {file file' : SourceFile}

/-- What is held after one source file has changed. -/
theorem holds_update (hheap : s'.heap = Function.update s.heap id (some file')) {id' : Nat}
    {n : List Path} {d : DestinationFile} (h : Holds s' id' n d) :
    id' = id ∧ n = file'.name ∧ file'.destination = some d ∨ id' ≠ id ∧ Holds s id' n d := by
  obtain ⟨f, hf, hn, hd⟩ := h
  rw [hheap, Function.update_apply] at hf
  split at hf
  · rename_i hid
    cases hf
    exact Or.inl ⟨hid, hn.symm, hd⟩
  · rename_i hid
    exact Or.inr ⟨hid, f, hf, hn, hd⟩

/-- A source file that keeps its name and its destination, or loses it. -/
theorem holds_change (hfile : s.heap id = some file)
    (hheap : s'.heap = Function.update s.heap id (some file')) (hname : file'.name = file.name)
    (hdest : file'.destination = file.destination ∨ file'.destination = none) (id' : Nat)
    (n : List Path) (d : DestinationFile) (h : Holds s' id' n d) : Holds s id' n d := by
  obtain ⟨rfl, rfl, hd⟩ | ⟨-, h⟩ := holds_update hheap h
  · rcases hdest with hdest | hdest
    · exact ⟨file, hfile, hname.symm, hdest.symm.trans hd⟩
    · rw [hdest] at hd
      cases hd
  · exact h

/-- A new source file has no destination. -/
theorem holds_add {name : List Path} {r : Nat}
    (hheap : s'.heap = Function.update s.heap id (some ⟨name, r, none⟩)) (id' : Nat)
    (n : List Path) (d : DestinationFile) (h : Holds s' id' n d) : Holds s id' n d := by
  obtain ⟨-, -, hd⟩ | ⟨-, h⟩ := holds_update hheap h
  · cases hd
  · exact h

theorem holds_drop (hheap : s'.heap = Function.update s.heap id none) (id' : Nat)
    (n : List Path) (d : DestinationFile) (h : Holds s' id' n d) : Holds s id' n d := by
  obtain ⟨f, hf, hn, hd⟩ := h
  rw [hheap, Function.update_apply] at hf
  split at hf
  · cases hf
  · exact ⟨f, hf, hn, hd⟩

theorem holds_same (hheap : s'.heap = s.heap) (id' : Nat) (n : List Path) (d : DestinationFile)
    (h : Holds s' id' n d) : Holds s id' n d := by
  rw [Holds, hheap] at h
  exact h

end TokuBackup.Moves
