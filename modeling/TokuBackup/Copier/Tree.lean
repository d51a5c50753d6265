import TokuBackup.Copier.Model
import TokuBackup.Lib.Worklist

/-!
# What the copier has to handle

An entry of a source tree is the list of names that leads to it from the root of the tree. The
copier writes it as the string of these names with a slash before each, and the root as `.`.

An entry is handled when no directory above it is excluded, and copied when it is not excluded
itself. The entries of all trees of the set are a forest, and the ones to be handled are those
that can be reached from the roots when excluded entries have no children.
-/

namespace TokuBackup.Copier

open Kernel Lib

/-- A directory of the set and an entry of its source tree. -/
abbrev Item := Nat × List Path

/-- The name of an entry on the todo list. -/
def todoName (rel : List Path) : Path := if rel = [] then ['.'] else slashed rel

/-- The path of an entry of the tree at `root`. -/
def entryPath (root : Path) (rel : List Path) : Path :=
  if rel = [] then root else pathcat root (slashed rel)

variable (D : DirectorySet) (fs : Fs)

/-- No directory above the entry is excluded. -/
def Handled (source : Path) (rel : List Path) : Prop :=
  fs.node (components source ++ rel) ≠ none ∧
    ∀ l, l <+: rel → l ≠ rel → D.excludeCopy (entryPath source l) = false

/-- Neither the entry nor a directory above it is excluded. -/
def Copied (source : Path) (rel : List Path) : Prop :=
  Handled D fs source rel ∧ D.excludeCopy (entryPath source rel) = false

def roots : List Item := (List.range D.dirs.length).map fun i => (i, [])

/-- What handling an entry adds to the todo list. -/
def children (x : Item) : List Item :=
  match D.dirs[x.1]? with
  | some (source, _) =>
    if D.excludeCopy (entryPath source x.2) then []
    else (fs.names (components source ++ x.2)).map fun n => (x.1, x.2 ++ [n])
  | none => []

/-- Every entry of every tree, and perhaps more. -/
def allItems : List Item :=
  (List.range D.dirs.length).flatMap fun i =>
    match D.dirs[i]? with
    | some (source, _) => fs.nodes.keys.map fun k => (i, k.drop (components source).length)
    | none => []

section

variable {D : DirectorySet} {fs : Fs} {source dest : Path} {rel : List Path} {n : Path}
  {i : Nat} {d : Path × Path} {x y : Item}

/-! ## Names -/

theorem todoName_eq_dot (h : ∀ n ∈ rel, IsEntry n) : todoName rel = ['.'] ↔ rel = [] := by
  constructor
  · intro hdot
    rw [todoName] at hdot
    split at hdot
    · assumption
    · rename_i hne
      obtain ⟨n, rel, rfl⟩ := List.exists_cons_of_ne_nil hne
      rw [slashed_cons, List.cons.injEq] at hdot
      exact absurd hdot.1 (by decide)
  · intro hrel
    rw [todoName, if_pos hrel]

theorem todoName_concat : todoName (rel ++ [n]) = slashed rel ++ '/' :: n := by
  rw [todoName, if_neg (List.append_ne_nil_of_right_ne_nil _ (List.cons_ne_nil _ _)),
    slashed_append, slashed_cons]
  congr 2
  exact List.append_nil n

theorem components_entryPath (root : Path) (h : ∀ n ∈ rel, IsEntry n) :
    components (entryPath root rel) = components root ++ rel := by
  rw [entryPath]
  split
  · rename_i hrel
    rw [hrel, List.append_nil]
  · rw [components_pathcat, components_slashed fun n hn => (h n hn).1]

/-- Entries with one name are one entry. -/
theorem todoName_injective {rel' : List Path} (h : ∀ n ∈ rel, IsEntry n)
    (h' : ∀ n ∈ rel', IsEntry n) (heq : todoName rel = todoName rel') : rel = rel' := by
  by_cases hrel : rel = []
  · have hdot : todoName rel' = ['.'] := heq ▸ (todoName_eq_dot h).mpr hrel
    rw [hrel, (todoName_eq_dot h').mp hdot]
  · have hrel' : rel' ≠ [] := by
      intro hnil
      exact hrel ((todoName_eq_dot h).mp (heq.trans ((todoName_eq_dot h').mpr hnil)))
    rw [todoName, todoName, if_neg hrel, if_neg hrel'] at heq
    rw [← components_slashed fun n hn => (h n hn).1, heq,
      components_slashed fun n hn => (h' n hn).1]

/-! ## Handled and copied -/

theorem handled_nil : Handled D fs source [] ↔ fs.node (components source) ≠ none := by
  rw [Handled, List.append_nil]
  constructor
  · exact fun h => h.1
  · refine fun h => ⟨h, fun l hl hne => ?_⟩
    exact absurd (List.prefix_nil.mp hl) hne

/-- An entry is handled when its directory is copied. -/
theorem handled_concat : Handled D fs source (rel ++ [n]) ↔
    Copied D fs source rel ∧ fs.node (components source ++ (rel ++ [n])) ≠ none := by
  constructor
  · rintro ⟨hnode, habove⟩
    have hself : rel ≠ rel ++ [n] := by
      intro h
      have hlen := congrArg List.length h
      simp at hlen
    refine ⟨⟨⟨?_, fun l hl hne => ?_⟩, ?_⟩, hnode⟩
    · rw [← List.append_assoc] at hnode
      rw [Fs.parent_directory hnode]
      exact Option.some_ne_none _
    · apply habove l (hl.trans (List.prefix_append rel [n]))
      rintro rfl
      have hlen := hl.length_le
      simp at hlen
    · exact habove rel (List.prefix_append rel [n]) hself
  · rintro ⟨⟨⟨-, habove⟩, hrel⟩, hnode⟩
    refine ⟨hnode, fun l hl hne => ?_⟩
    rcases List.prefix_concat_iff.mp hl with rfl | hl
    · exact absurd rfl hne
    · by_cases hlrel : l = rel
      · rw [hlrel]
        exact hrel
      · exact habove l hl hlrel

theorem Handled.isEntry (h : Handled D fs source rel) : ∀ n ∈ rel, IsEntry n :=
  Fs.isEntry_of_append h.1

/-! ## The forest -/

theorem mem_roots : x ∈ roots D ↔ x.2 = [] ∧ x.1 < D.dirs.length := by
  obtain ⟨i, rel⟩ := x
  simp only [roots, List.mem_map, List.mem_range, Prod.mk.injEq]
  constructor
  · rintro ⟨j, hj, rfl, rfl⟩
    exact ⟨rfl, hj⟩
  · rintro ⟨rfl, hi⟩
    exact ⟨i, hi, rfl, rfl⟩

theorem mem_children : y ∈ children D fs x ↔ ∃ d n, D.dirs[x.1]? = some d ∧
    D.excludeCopy (entryPath d.1 x.2) = false ∧ y = (x.1, x.2 ++ [n]) ∧
    fs.node (components d.1 ++ (x.2 ++ [n])) ≠ none := by
  rw [children]
  constructor
  · intro h
    split at h
    · rename_i source dest hd
      split at h
      · cases h
      · rename_i hex
        obtain ⟨n, hn, rfl⟩ := List.mem_map.mp h
        rw [Fs.mem_names, List.append_assoc] at hn
        exact ⟨(source, dest), n, hd, by simpa using hex, rfl, hn⟩
    · cases h
  · rintro ⟨d, n, hd, hex, rfl, hn⟩
    rw [hd]
    dsimp only
    rw [if_neg (by rw [hex]; exact Bool.false_ne_true)]
    refine List.mem_map.mpr ⟨n, ?_, rfl⟩
    rw [Fs.mem_names, List.append_assoc]
    exact hn

theorem isForest (D : DirectorySet) (fs : Fs) : IsForest (roots D) (children D fs) where
  roots_nodup := by
    apply List.Nodup.map _ List.nodup_range
    intro i j h
    exact congrArg Prod.fst h
  children_nodup x := by
    rw [children]
    split
    · split
      · exact List.nodup_nil
      · apply List.Nodup.map _ Fs.names_nodup
        intro n m h
        have hrel := congrArg Prod.snd h
        exact List.singleton_inj.mp (List.append_cancel_left hrel)
    · exact List.nodup_nil
  parent_unique := by
    rintro ⟨i, rel⟩ ⟨j, rel'⟩ z hz hz'
    obtain ⟨d, n, hd, hex, rfl, hn⟩ := mem_children.mp hz
    obtain ⟨d', n', hd', hex', heq, hn'⟩ := mem_children.mp hz'
    rw [Prod.mk.injEq] at heq
    rw [Prod.mk.injEq]
    exact ⟨heq.1, (List.append_inj' heq.2 rfl).1⟩
  root_no_parent := by
    rintro x y hy hroot
    obtain ⟨d, n, hd, hex, rfl, hn⟩ := mem_children.mp hy
    have hnil := (mem_roots.mp hroot).1
    simp at hnil

/-- What can be reached is what has to be handled. -/
theorem reach_iff (hsource : ∀ d ∈ D.dirs, fs.node (components d.1) ≠ none) :
    Reach (roots D) (children D fs) x ↔
      ∃ d, D.dirs[x.1]? = some d ∧ Handled D fs d.1 x.2 := by
  constructor
  · intro h
    induction h with
    | @root x hx =>
      obtain ⟨hnil, hlt⟩ := mem_roots.mp hx
      refine ⟨_, List.getElem?_eq_getElem hlt, ?_⟩
      rw [hnil, handled_nil]
      exact hsource _ (List.getElem_mem hlt)
    | @child x y _ hy ih =>
      obtain ⟨d, n, hd, hex, rfl, hn⟩ := mem_children.mp hy
      obtain ⟨d', hd', hx⟩ := ih
      rw [hd, Option.some.injEq] at hd'
      subst hd'
      exact ⟨d, hd, handled_concat.mpr ⟨⟨hx, hex⟩, hn⟩⟩
  · rintro ⟨d, hd, h⟩
    obtain ⟨i, rel⟩ := x
    dsimp only at hd h
    induction rel using List.reverseRecOn with
    | nil => exact Reach.root (mem_roots.mpr ⟨rfl, (List.getElem?_eq_some_iff.mp hd).1⟩)
    | append_singleton rel n ih =>
      obtain ⟨hrel, hn⟩ := handled_concat.mp h
      exact Reach.child (ih hrel.1) (mem_children.mpr ⟨d, n, hd, hrel.2, rfl, hn⟩)

theorem mem_allItems (hd : D.dirs[x.1]? = some d) (h : Handled D fs d.1 x.2) :
    x ∈ allItems D fs := by
  obtain ⟨i, rel⟩ := x
  refine List.mem_flatMap.mpr ⟨i, List.mem_range.mpr (List.getElem?_eq_some_iff.mp hd).1, ?_⟩
  dsimp only at hd
  rw [hd]
  refine List.mem_map.mpr ⟨components d.1 ++ rel, ?_, ?_⟩
  · exact AList.mem_keys.mp (Fs.mem_nodes.mpr h.1)
  · rw [List.drop_left]

end

end TokuBackup.Copier
