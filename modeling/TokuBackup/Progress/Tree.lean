import TokuBackup.Copier.Tree

/-!
# Source trees

What a source directory holds while nothing changes it: a tree without symbolic links.
`dirsum` adds up the sizes in it, by recursion. `Tree.sum` is the same recursion with weights
and with entries that are left out, and `Tree.find` is how a path is looked up; what a work
list of paths stands for is the sum over the trees found at them.
-/

namespace TokuBackup.Progress

open Kernel

/-! ## Trees -/

/-- A regular file with its `st_size`, a directory, or something else, whose `st_size` is 0. -/
inductive Tree where
  | regular (size : Nat)
  | other
  | directory (entries : List (Path × Tree))

/-- The entries of a directory have different names. -/
inductive Tree.WellFormed : Tree → Prop
  | regular (size : Nat) : WellFormed (.regular size)
  | other : WellFormed .other
  | directory (entries : List (Path × Tree)) (hnodup : (entries.map Prod.fst).Nodup)
      (hname : ∀ e ∈ entries, IsEntry e.1) (hsub : ∀ e ∈ entries, e.2.WellFormed) :
      WellFormed (.directory entries)

/-- What is in a source directory. -/
structure SourceTree where
  entries : List (Path × Tree)
  wellFormed : (Tree.directory entries).WellFormed

def SourceTree.root (T : SourceTree) : Tree := .directory T.entries

mutual

/-- What an entry adds to the sum. -/
def Tree.added : Tree → Nat
  | .regular size => size
  | .other => 0
  | .directory entries => dirsum entries

/-- `dirsum`, for what `readdir` still returns. -/
def dirsum : List (Path × Tree) → Nat
  | [] => 0
  | (_, t) :: entries => t.added + dirsum entries

end

/-! ## Looking up -/

def Tree.child : Tree → Path → Option Tree
  | .directory entries, n => entries.lookup n
  | _, _ => none

/-- What the names lead to. -/
def Tree.find (t : Tree) (rel : List Path) : Option Tree := rel.foldlM Tree.child t

variable {t t' : Tree} {entries : List (Path × Tree)} {rel : List Path} {n : Path}

@[simp] theorem Tree.find_nil (t : Tree) : t.find [] = some t := rfl

theorem Tree.find_concat (t : Tree) (rel : List Path) (n : Path) :
    t.find (rel ++ [n]) = (t.find rel).bind fun u => u.child n := by
  rw [Tree.find, List.foldlM_append]
  refine congrArg (Option.bind (rel.foldlM Tree.child t)) (funext fun u => ?_)
  rw [List.foldlM_cons]
  exact bind_pure (u.child n)

theorem mem_of_lookup (h : entries.lookup n = some t) : (n, t) ∈ entries := by
  induction entries with
  | nil => cases h
  | cons e entries ih =>
    obtain ⟨m, u⟩ := e
    rw [List.lookup_cons] at h
    split at h
    · rename_i heq
      cases h
      rw [eq_of_beq heq]
      exact List.mem_cons_self
    · exact List.mem_cons_of_mem _ (ih h)

theorem lookup_of_mem (hnodup : (entries.map Prod.fst).Nodup) (h : (n, t) ∈ entries) :
    entries.lookup n = some t := by
  induction entries with
  | nil => cases h
  | cons e entries ih =>
    obtain ⟨m, u⟩ := e
    rw [List.map_cons, List.nodup_cons] at hnodup
    rw [List.lookup_cons]
    rcases List.mem_cons.mp h with heq | hmem
    · cases heq
      rw [beq_self_eq_true]
    · have hne : n ≠ m := by
        rintro rfl
        exact hnodup.1 (List.mem_map.mpr ⟨(n, t), hmem, rfl⟩)
      rw [beq_eq_false_iff_ne.mpr hne]
      exact ih hnodup.2 hmem

theorem Tree.WellFormed.child (h : t.WellFormed) (hn : t.child n = some t') :
    IsEntry n ∧ t'.WellFormed := by
  cases h with
  | regular size => cases hn
  | other => cases hn
  | directory entries hnodup hname hsub =>
    have hmem := mem_of_lookup hn
    exact ⟨hname _ hmem, hsub _ hmem⟩

/-- What is found in a tree is a tree, under names that a directory may have. -/
theorem Tree.WellFormed.find (h : t.WellFormed) (hrel : t.find rel = some t') :
    (∀ n ∈ rel, IsEntry n) ∧ t'.WellFormed := by
  induction rel using List.reverseRecOn generalizing t' with
  | nil =>
    cases hrel
    exact ⟨by simp, h⟩
  | append_singleton rel n ih =>
    rw [Tree.find_concat] at hrel
    obtain ⟨u, hu, hn⟩ := Option.bind_eq_some_iff.mp hrel
    obtain ⟨hnames, hwf⟩ := ih hu
    obtain ⟨hname, hwf'⟩ := hwf.child hn
    refine ⟨fun m hm => ?_, hwf'⟩
    rcases List.mem_append.mp hm with hm | hm
    · exact hnames m hm
    · rw [List.mem_singleton.mp hm]
      exact hname

/-! ## Sums over trees -/

section

variable (skip : List Path → Bool) (file : Nat → Nat) (node : Nat)

mutual

/-- The sum of the files' weights, and of `node` for anything else, over the tree at `rel`
without the parts that are skipped. -/
def Tree.sum (rel : List Path) : Tree → Nat
  | .regular size => if skip rel then 0 else file size
  | .other => if skip rel then 0 else node
  | .directory entries => if skip rel then 0 else node + sumEntries rel entries

def sumEntries (rel : List Path) : List (Path × Tree) → Nat
  | [] => 0
  | (n, t) :: entries => t.sum (rel ++ [n]) + sumEntries rel entries

end

/-- The sum over what is found at `rel`. -/
def Tree.sumAt (t : Tree) (rel : List Path) : Nat :=
  (t.find rel).elim 0 fun u => u.sum skip file node rel

variable {skip} {file} {node}

theorem sumEntries_eq (rel : List Path) (entries : List (Path × Tree)) :
    sumEntries skip file node rel entries =
      (entries.map fun e => e.2.sum skip file node (rel ++ [e.1])).sum := by
  induction entries with
  | nil => rfl
  | cons e entries ih =>
    obtain ⟨n, u⟩ := e
    rw [sumEntries, ih, List.map_cons, List.sum_cons]

theorem Tree.sum_skipped (h : skip rel = true) : t.sum skip file node rel = 0 := by
  cases t with
  | regular size => rw [Tree.sum, if_pos h]
  | other => rw [Tree.sum, if_pos h]
  | directory entries => rw [Tree.sum, if_pos h]

theorem Tree.sumAt_of_find (h : t.find rel = some t') :
    t.sumAt skip file node rel = t'.sum skip file node rel := by
  rw [Tree.sumAt, h]
  rfl

/-- Everything has a weight when files and the rest have one and nothing is skipped. -/
theorem Tree.sumAt_pos (h : t.find rel = some t') :
    0 < t.sumAt (fun _ => false) (· + 1) 1 rel := by
  rw [Tree.sumAt_of_find h]
  cases t' with
  | regular size => exact Nat.succ_pos size
  | other => exact Nat.one_pos
  | directory entries =>
    rw [Tree.sum, if_neg (by simp)]
    omega

/-- The sum at a directory is the sum at the names that `readdir` returns, in any order. -/
theorem Tree.sumAt_directory (hwf : t.WellFormed) (h : t.find rel = some (.directory entries))
    (hskip : skip rel = false) {names : List Path} (hnames : names.Perm (entries.map Prod.fst)) :
    t.sumAt skip file node rel =
      node + (names.map fun n => t.sumAt skip file node (rel ++ [n])).sum := by
  cases (hwf.find h).2 with
  | directory entries hnodup hname hsub =>
    rw [Tree.sumAt_of_find h, Tree.sum, if_neg (by simp [hskip]), sumEntries_eq]
    rw [(hnames.map fun n => t.sumAt skip file node (rel ++ [n])).sum_eq, List.map_map]
    congr 2
    refine List.map_congr_left fun e he => ?_
    have hchild : t.find (rel ++ [e.1]) = some e.2 := by
      rw [Tree.find_concat, h, Option.bind_some]
      exact lookup_of_mem hnodup he
    exact (Tree.sumAt_of_find hchild).symm

end

/-! ### `dirsum` as a sum -/

mutual

theorem Tree.added_eq (skip : List Path → Bool) (hskip : ∀ rel, skip rel = false) :
    ∀ (rel : List Path) (t : Tree), t.added = t.sum skip id 0 rel
  | rel, .regular size => by
    rw [Tree.added, Tree.sum, if_neg (by simp [hskip])]
    rfl
  | rel, .other => by
    rw [Tree.added, Tree.sum, if_neg (by simp [hskip])]
  | rel, .directory entries => by
    rw [Tree.added, Tree.sum, if_neg (by simp [hskip]), Nat.zero_add,
      dirsum_eq skip hskip rel entries]

theorem dirsum_eq (skip : List Path → Bool) (hskip : ∀ rel, skip rel = false) :
    ∀ (rel : List Path) (entries : List (Path × Tree)),
      dirsum entries = sumEntries skip id 0 rel entries
  | rel, [] => by rw [dirsum, sumEntries]
  | rel, (n, t) :: entries => by
    rw [dirsum, sumEntries, Tree.added_eq skip hskip (rel ++ [n]) t,
      dirsum_eq skip hskip rel entries]

end

end TokuBackup.Progress
