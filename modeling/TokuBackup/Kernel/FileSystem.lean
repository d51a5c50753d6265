import Mathlib.Data.List.AList
import TokuBackup.Kernel.Components
import TokuBackup.Kernel.Content

/-!
# A file system

A finite tree of directories and regular files, without links. What exists is found by the
components of its path and lies in a directory; that is part of the type, so that no system
call can break it. An open file is named by its components too: no file is renamed or removed
here.
-/

namespace TokuBackup.Kernel

inductive Node where
  | directory
  | regular (content : Content)

instance decidableIsDirectory : (v : Option Node) → Decidable (v = some .directory)
  | some .directory => isTrue rfl
  | some (.regular _) => isFalse nofun
  | none => isFalse nofun

/-- The errors of the calls below. -/
inductive FsError where
  | enoent
  | eexist
  | enotdir
  | eisdir
  deriving DecidableEq

def FsError.errno : FsError → Int
  | .enoent => 2
  | .eexist => 17
  | .enotdir => 20
  | .eisdir => 21

structure Fs where
  nodes : AList fun _ : List Path => Node
  parent : ∀ l n, l ++ [n] ∈ nodes → nodes.lookup l = some .directory ∧ IsEntry n

namespace Fs

variable {fs fs' : Fs} {k l : List Path} {n path : Path} {v : Node}

def node (fs : Fs) (l : List Path) : Option Node := fs.nodes.lookup l

theorem mem_nodes : l ∈ fs.nodes ↔ fs.node l ≠ none := by
  rw [node, ne_eq, AList.lookup_eq_none, not_not]

/-- What exists lies in a directory. -/
theorem parent_directory (h : fs.node (l ++ [n]) ≠ none) : fs.node l = some .directory :=
  (fs.parent l n (mem_nodes.mpr h)).1

theorem isEntry (h : fs.node (l ++ [n]) ≠ none) : IsEntry n :=
  (fs.parent l n (mem_nodes.mpr h)).2

/-- All that lies above what exists is a directory. -/
theorem directory_of_append (h : fs.node (l ++ k) ≠ none) (hk : k ≠ []) :
    fs.node l = some .directory := by
  induction k using List.reverseRecOn with
  | nil => exact absurd rfl hk
  | append_singleton k n ih =>
    rw [← List.append_assoc] at h
    have hdir := parent_directory h
    by_cases hk : k = []
    · rw [hk, List.append_nil] at hdir
      exact hdir
    · apply ih _ hk
      rw [hdir]
      exact Option.some_ne_none _

theorem isEntry_of_append (h : fs.node (l ++ k) ≠ none) : ∀ n ∈ k, IsEntry n := by
  induction k using List.reverseRecOn with
  | nil => exact fun n hn => absurd hn List.not_mem_nil
  | append_singleton k m ih =>
    rw [← List.append_assoc] at h
    intro n hn
    rcases List.mem_append.mp hn with hn | hn
    · apply ih _ n hn
      rw [parent_directory h]
      exact Option.some_ne_none _
    · rw [List.mem_singleton] at hn
      rw [hn]
      exact isEntry h

/-- What `readdir` returns for a directory, besides `.` and `..`. -/
def names (fs : Fs) (l : List Path) : List Path :=
  fs.nodes.keys.filterMap fun k => if k.dropLast = l then k.getLast? else none

theorem names_aux {k : List Path} :
    (if k.dropLast = l then k.getLast? else none) = some n ↔ k = l ++ [n] := by
  constructor
  · intro h
    split at h
    · rename_i hk
      obtain ⟨m, rfl⟩ := List.getLast?_eq_some_iff.mp h
      rw [List.dropLast_concat] at hk
      rw [hk]
    · cases h
  · rintro rfl
    rw [List.dropLast_concat, if_pos rfl, List.getLast?_concat]

theorem mem_names : n ∈ fs.names l ↔ fs.node (l ++ [n]) ≠ none := by
  rw [names, List.mem_filterMap, ← mem_nodes, AList.mem_keys]
  constructor
  · rintro ⟨k, hk, hn⟩
    rw [names_aux.mp hn] at hk
    exact hk
  · exact fun h => ⟨l ++ [n], h, names_aux.mpr rfl⟩

theorem names_nodup : (fs.names l).Nodup := by
  apply List.Nodup.filterMap _ fs.nodes.keys_nodup
  intro k k' n hk hk'
  rw [names_aux.mp hk, names_aux.mp hk']

/-- A file system from a list of what exists. -/
def ofNodes (nodes : AList fun _ : List Path => Node)
    (h : ∀ k ∈ nodes.keys, k = [] ∨
      nodes.lookup k.dropLast = some .directory ∧ IsEntry (k.getLast?.getD [])) : Fs where
  nodes := nodes
  parent l n hln := by
    rcases h (l ++ [n]) (AList.mem_keys.mp hln) with hnil | hparent
    · exact absurd hnil (List.append_ne_nil_of_right_ne_nil _ (List.cons_ne_nil _ _))
    · rw [List.dropLast_concat, List.getLast?_concat] at hparent
      exact hparent

/-! ## Changes -/

/-- Put a node where no directory is; its parent must be one. -/
def set (fs : Fs) (k : List Path) (v : Node) (hfree : fs.node k ≠ some .directory)
    (hk : ∀ l n, k = l ++ [n] → fs.node l = some .directory ∧ IsEntry n) : Fs where
  nodes := fs.nodes.insert k v
  parent l n h := by
    have hold : ∀ l, fs.node l = some .directory → (fs.nodes.insert k v).lookup l =
        some .directory := by
      intro l hl
      have hne : l ≠ k := by
        rintro rfl
        exact hfree hl
      rw [AList.lookup_insert_ne hne]
      exact hl
    rw [AList.mem_insert] at h
    rcases h with h | h
    · obtain ⟨hdir, hn⟩ := hk l n h.symm
      exact ⟨hold l hdir, hn⟩
    · obtain ⟨hdir, hn⟩ := fs.parent l n h
      exact ⟨hold l hdir, hn⟩

theorem node_set {hfree : fs.node k ≠ some .directory}
    {hk : ∀ l n, k = l ++ [n] → fs.node l = some .directory ∧ IsEntry n} :
    (fs.set k v hfree hk).node l = if l = k then some v else fs.node l := by
  rw [node, set]
  split
  · rename_i h
    rw [h, AList.lookup_insert]
  · rename_i h
    rw [AList.lookup_insert_ne h]
    rfl

/-- Why there is nothing: a file stands where a directory should, or something is missing. -/
def absence (fs : Fs) (l : List Path) : FsError :=
  if l.inits.any fun k => fs.node k matches some (.regular _) then .enotdir else .enoent

def stat (fs : Fs) (path : Path) : Except FsError Node :=
  match fs.node (components path) with
  | some v => .ok v
  | none => .error (fs.absence (components path))

/-- Create `v` where nothing is; `dots` is the error for the names `.` and `..`, which every
directory has. -/
def create (fs : Fs) (k : List Path) (v : Node) (dots : FsError)
    (hfree : fs.node k ≠ some .directory) : Except FsError Fs :=
  if hk : k ≠ [] then
    if hdir : fs.node k.dropLast = some .directory then
      if hn : IsEntry (k.getLast hk) then
        .ok (fs.set k v hfree fun l n h => by
          subst h
          rw [List.dropLast_concat] at hdir
          rw [List.getLast_append_singleton] at hn
          exact ⟨hdir, hn⟩)
      else .error dots
    else .error (fs.absence k)
  else .error .enoent

theorem create_ok {dots : FsError} {hfree : fs.node (l ++ [n]) ≠ some .directory}
    (hdir : fs.node l = some .directory) (hn : IsEntry n) :
    ∃ fs', fs.create (l ++ [n]) v dots hfree = .ok fs' ∧
      ∀ k, fs'.node k = if k = l ++ [n] then some v else fs.node k := by
  have hne : l ++ [n] ≠ [] := List.append_ne_nil_of_right_ne_nil _ (List.cons_ne_nil _ _)
  rw [create, dif_pos hne, dif_pos (by rw [List.dropLast_concat]; exact hdir),
    dif_pos (by rw [List.getLast_append_singleton]; exact hn)]
  exact ⟨_, rfl, fun k => node_set⟩

def mkdir (fs : Fs) (path : Path) : Except FsError Fs :=
  if h : fs.node (components path) = none then
    fs.create (components path) .directory .eexist (by rw [h]; exact nofun)
  else .error .eexist

/-- `open` with `O_RDWR | O_CREAT`: an existing file is left as it is. -/
def openCreate (fs : Fs) (path : Path) : Except FsError Fs :=
  match h : fs.node (components path) with
  | some (.regular _) => .ok fs
  | some .directory => .error .eisdir
  | none => fs.create (components path) (.regular .empty) .eisdir (by rw [h]; exact nofun)

theorem mkdir_exists (h : fs.node (components path) ≠ none) : fs.mkdir path = .error .eexist :=
  dif_neg h

theorem mkdir_new (hpath : components path = l ++ [n]) (hdir : fs.node l = some .directory)
    (hn : IsEntry n) (hnew : fs.node (l ++ [n]) = none) :
    ∃ fs', fs.mkdir path = .ok fs' ∧
      ∀ k, fs'.node k = if k = l ++ [n] then some .directory else fs.node k := by
  have hfree : fs.node (l ++ [n]) ≠ some .directory := by
    rw [hnew]
    exact nofun
  obtain ⟨fs', hok, hnode⟩ := @create_ok fs l n .directory .eexist hfree hdir hn
  refine ⟨fs', ?_, hnode⟩
  rw [mkdir, dif_pos (hpath ▸ hnew), ← hok]
  congr 1

theorem openCreate_new (hpath : components path = l ++ [n]) (hdir : fs.node l = some .directory)
    (hn : IsEntry n) (hnew : fs.node (l ++ [n]) = none) :
    ∃ fs', fs.openCreate path = .ok fs' ∧
      ∀ k, fs'.node k = if k = l ++ [n] then some (.regular .empty) else fs.node k := by
  have hfree : fs.node (l ++ [n]) ≠ some .directory := by
    rw [hnew]
    exact nofun
  obtain ⟨fs', hok, hnode⟩ := @create_ok fs l n (.regular .empty) .eisdir hfree hdir hn
  refine ⟨fs', ?_, hnode⟩
  rw [openCreate]
  split
  · rename_i h
    rw [hpath, hnew] at h
    cases h
  · rename_i h
    rw [hpath, hnew] at h
    cases h
  · rw [← hok]
    congr 1

/-- `write` to an open file, with the offset of the descriptor. -/
def write (fs : Fs) (l : List Path) (offset : Nat) (buf : List UInt8) : Fs :=
  match h : fs.node l with
  | some (.regular c) =>
    fs.set l (.regular (c.write offset buf)) (by rw [h]; exact nofun) fun k n hl =>
      fs.parent k n (mem_nodes.mpr (by rw [← hl, h]; exact nofun))
  | _ => fs

theorem node_write {c : Content} {offset : Nat} {buf : List UInt8}
    (h : fs.node l = some (.regular c)) :
    (fs.write l offset buf).node k =
      if k = l then some (.regular (c.write offset buf)) else fs.node k := by
  rw [write]
  split
  · rename_i c' h'
    rw [h] at h'
    cases h'
    exact node_set
  · rename_i h'
    exact absurd h (h' c)

/-- Another content for a regular file. -/
def rewrite (fs : Fs) (l : List Path) (content : Content) : Option Fs :=
  match h : fs.node l with
  | some (.regular _) =>
    some (fs.set l (.regular content) (by rw [h]; exact nofun) fun k n hl =>
      fs.parent k n (mem_nodes.mpr (by rw [← hl, h]; exact nofun)))
  | _ => none

theorem rewrite_some {fs' : Fs} {content : Content} (h : fs.rewrite l content = some fs') :
    (∃ c, fs.node l = some (.regular c)) ∧
      ∀ k, fs'.node k = if k = l then some (.regular content) else fs.node k := by
  rw [rewrite] at h
  split at h
  · rename_i c hl
    cases h
    exact ⟨⟨c, hl⟩, fun k => node_set⟩
  · cases h

theorem rewrite_directory {fs' : Fs} {content : Content} (h : fs.rewrite l content = some fs')
    (k : List Path) : fs'.node k = some .directory ↔ fs.node k = some .directory := by
  obtain ⟨⟨c, hl⟩, hnode⟩ := rewrite_some h
  rw [hnode]
  split
  · rename_i hk
    rw [hk, hl]
    simp
  · exact Iff.rfl

end Fs

end TokuBackup.Kernel
