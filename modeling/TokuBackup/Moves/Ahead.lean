import TokuBackup.Moves.Destinations

/-!
# A file that is still to be copied

The copier lists the directories in their order, and comes across a file in a directory that it
has not listed yet, unless the listing leaves the file out.
-/

namespace TokuBackup.Moves

open Kernel

/-- The entry that the copier has found and not begun to copy. -/
def Pc.reads : Pc → Option (List Path)
  | .found rel => some rel
  | .attached rel _ => some rel
  | .opened rel _ _ => some rel
  | _ => none

/-- The directory that is being listed. -/
def Pc.scans : Pc → Option (List Path)
  | .scanning rel _ => some rel
  | _ => none

/-- The same, with what was in it when it was opened. -/
def Pc.listing : Pc → Option (List Path × List Path)
  | .scanning rel required => some (rel, required)
  | _ => none

/-- The copier comes to `new` in the directory `j` of the set, under the name `n` in `front`,
and copies it to `k`. -/
structure Place (D : DirectorySet) (new : Path) (k : List Path) (j : Nat) (d : Path × Path)
    (front : List Path) (n : Path) : Prop where
  pair : D.dirs[j]? = some d
  source : components new = components d.1 ++ (front ++ [n])
  target : k = components d.2 ++ (front ++ [n])
  included : ∀ l, l <+: front ++ [n] → D.excludeCopy (Copier.entryPath d.1 l) = false

/-- The copier is within a directory of the set. -/
def Pc.working : Pc → Bool
  | .next => false
  | .returned _ => false
  | _ => true

def Pc.starts : Pc → Bool
  | .next => true
  | _ => false

def Pc.ends : Pc → Bool
  | .returned _ => true
  | _ => false

def Action.byCopier : Action → Bool
  | .rename => false
  | .capture => false
  | .push => false
  | .endSession => false
  | _ => true

/-- The copier has the file `n` in `front` before it, in the directory `j` of the set. -/
inductive Ahead (j : Nat) (front : List Path) (n : Path) (s : State) : Prop
  | later (hindex : s.index < j) (hpc : ∀ r, s.pc ≠ .returned r)
  | starting (hindex : s.index = j) (hpc : s.pc = .next)
  /-- A directory above it, or the file itself, is on the list. -/
  | queued {l} (hindex : s.index = j) (hpc : s.pc.working = true) (hl : l <+: front ++ [n])
      (hmem : l ∈ s.todo)
  | scanned {l required} (hindex : s.index = j) (hpc : s.pc = .scanning l required)
      (hl : l <+: front) (hrequired : ∀ m, l ++ [m] <+: front → m ∈ required)
  | reading (hindex : s.index = j) (hpc : s.pc.reads = some (front ++ [n]))

section

variable {D : DirectorySet} {old new : Path} {s s' : State} {a : Action} {c : Content}
  {k : List Path} {j : Nat} {d : Path × Path} {front : List Path} {n : Path}

/-- The directories above a file that has just been moved there. -/
theorem Place.directories (hP : Place D new k j d front n) {fs : Fs}
    (h : fs.node (components new).dropLast = some .directory) (l : List Path) (hl : l <+: front) :
    fs.node (components d.1 ++ l) = some .directory := by
  rw [hP.source, ← List.append_assoc, List.dropLast_concat] at h
  obtain ⟨rest, rfl⟩ := hl
  by_cases hrest : rest = []
  · rw [hrest, List.append_nil] at h
    exact h
  · rw [← List.append_assoc] at h
    exact Fs.directory_of_append (by rw [h]; simp) hrest

/-- The directories are listed in their order. -/
theorem Ahead.advance_later (hP : Place D new k j d front n) (h : Advance D old new s a s')
    (ha : a.byCopier = true) (hindex : s.index < j) : Ahead j front n s' := by
  cases h with
  | endDirectory =>
    obtain hlt | heq := Nat.lt_or_eq_of_le (Nat.succ_le_of_lt hindex)
    · exact .later hlt (by simp)
    · exact .starting heq rfl
  | finish _ hle =>
    have hlt := (List.getElem?_eq_some_iff.mp hP.pair).1
    omega
  | create _ _ _ _ hprov =>
    rw [← hprov.only.index] at hindex
    exact .later hindex (by simp)
  | rename => cases ha
  | ignore => cases ha
  | refuseOld => cases ha
  | refuseNew => cases ha
  | moveOld => cases ha
  | moveNew => cases ha
  | push => cases ha
  | endSession => cases ha
  | _ => exact .later hindex (by simp)

theorem Ahead.advance_starting (hP : Place D new k j d front n) (h : Advance D old new s a s')
    (ha : a.byCopier = true) (hindex : s.index = j) (hpc : s.pc = .next) :
    Ahead j front n s' := by
  cases h with
  | startDirectory =>
    exact .queued hindex rfl List.nil_prefix (List.mem_append_right _ (List.mem_singleton_self _))
  | finish _ hle =>
    have hlt := (List.getElem?_eq_some_iff.mp hP.pair).1
    omega
  | _ => simp_all [Action.byCopier]

/-- The first entry of the list is a directory above the file, or the file. -/
theorem Ahead.advance_pop (hP : Place D new k j d front n)
    (hdirs : ∀ l, l <+: front → s.fs.node (components d.1 ++ l) = some .directory)
    (h : Advance D old new s .pop s') (hindex : s.index = j) {l : List Path}
    {todo : List (List Path)} (hl : l <+: front ++ [n]) (htodo : s.todo = l :: todo)
    (hfound : l = front ++ [n] → s.fs.node (components d.1 ++ l) = some (.regular c)) :
    Ahead j front n s' := by
  have habove : l ≠ front ++ [n] → l <+: front := by
    intro hne
    exact (List.prefix_concat_iff.mp hl).resolve_left hne
  have hscan : ∀ v : State, v.index = s.index → s.fs.node (components d.1 ++ l) = some .directory →
      v.pc = .scanning l (s.fs.names (components d.1 ++ l)) → Ahead j front n v := by
    intro v hv hdirectory hpc
    have hne : l ≠ front ++ [n] := by
      intro hfile
      rw [hfound hfile] at hdirectory
      cases hdirectory
    refine .scanned (hv.trans hindex) hpc (habove hne) fun m hm => ?_
    rw [Fs.mem_names, List.append_assoc, hdirs _ hm]
    simp
  have hpair : ∀ d', D.dirs[s.index]? = some d' → d' = d := by
    intro d' hd'
    rw [hindex, hP.pair] at hd'
    exact (Option.some.inj hd').symm
  cases h with
  | exclude _ htodo' hd' hex =>
    rw [htodo] at htodo'
    cases htodo'
    rw [hpair _ hd', hP.included l hl] at hex
    cases hex
  | vanish _ htodo' hd' hnode =>
    rw [htodo] at htodo'
    cases htodo'
    rw [hpair _ hd'] at hnode
    by_cases hfile : l = front ++ [n]
    · rw [hfound hfile] at hnode
      cases hnode
    · rw [hdirs l (habove hfile)] at hnode
      cases hnode
  | find _ htodo' hd' hnode =>
    rw [htodo] at htodo'
    cases htodo'
    rw [hpair _ hd'] at hnode
    by_cases hfile : l = front ++ [n]
    · exact .reading hindex (congrArg some hfile)
    · rw [hdirs l (habove hfile)] at hnode
      cases hnode
  | scanOld _ htodo' hd' hnode =>
    rw [htodo] at htodo'
    cases htodo'
    have heq := hpair _ hd'
    subst heq
    exact hscan _ rfl hnode rfl
  | scanNew _ htodo' hd' hnode =>
    rw [htodo] at htodo'
    cases htodo'
    have heq := hpair _ hd'
    subst heq
    exact hscan _ rfl hnode rfl

/-- What is on the list stays there until it is taken. -/
theorem Advance.todo_mem (h : Advance D old new s a s') (ha : a.byCopier = true)
    (hpc : s.pc.working = true) {l : List Path} (hl : l ∈ s.todo) :
    (s'.index = s.index ∧ s'.pc.working = true ∧ l ∈ s'.todo) ∨
      a = .pop ∧ ∃ todo, s.todo = l :: todo := by
  have hpop : ∀ {m todo} {v : State}, s.todo = m :: todo → v.index = s.index →
      v.pc.working = true → v.todo = todo → (v.index = s.index ∧ v.pc.working = true ∧ l ∈ v.todo) ∨
        Action.pop = .pop ∧ ∃ todo, s.todo = l :: todo := by
    intro m todo v htodo hindex hworking hv
    rw [htodo] at hl
    obtain rfl | hl := List.mem_cons.mp hl
    · exact Or.inr ⟨rfl, todo, htodo⟩
    · exact Or.inl ⟨hindex, hworking, by rw [hv]; exact hl⟩
  cases h with
  | startDirectory hnext =>
    rw [hnext] at hpc
    cases hpc
  | finish hnext =>
    rw [hnext] at hpc
    cases hpc
  | endDirectory _ htodo =>
    rw [htodo] at hl
    cases hl
  | exclude _ htodo => exact hpop htodo rfl rfl rfl
  | vanish _ htodo => exact hpop htodo rfl rfl rfl
  | find _ htodo => exact hpop htodo rfl rfl rfl
  | scanOld _ htodo => exact hpop htodo rfl rfl rfl
  | scanNew _ htodo => exact hpop htodo rfl rfl rfl
  | list => exact Or.inl ⟨rfl, rfl, List.mem_append_left _ hl⟩
  | create _ _ _ _ hprov =>
    rw [← hprov.only.todo] at hl
    exact Or.inl ⟨hprov.only.index, rfl, hl⟩
  | rename => cases ha
  | ignore => cases ha
  | refuseOld => cases ha
  | refuseNew => cases ha
  | moveOld => cases ha
  | moveNew => cases ha
  | push => cases ha
  | endSession => cases ha
  | _ => exact Or.inl ⟨rfl, rfl, hl⟩

/-- A directory above the file is listed, with the next name. -/
theorem Ahead.advance_scanned (hP : Place D new k j d front n)
    (hdirs : ∀ l, l <+: front → s.fs.node (components d.1 ++ l) = some .directory)
    (h : Advance D old new s a s') (ha : a.byCopier = true) (hindex : s.index = j)
    {l required : List Path} (hpc : s.pc = .scanning l required) (hl : l <+: front)
    (hrequired : ∀ m, l ++ [m] <+: front → m ∈ required)
    (hlisted : ∀ entries, a = .list entries → l = front → n ∈ entries) :
    Ahead j front n s' := by
  cases h with
  | @list rel required' d' entries hpc' hd' hlist =>
    rw [hpc] at hpc'
    cases hpc'
    rw [hindex, hP.pair] at hd'
    cases hd'
    have hentry : ∀ m, m ∈ entries → l ++ [m] ∈ s.todo ++ entries.map fun n => l ++ [n] :=
      fun m hm => List.mem_append_right _ (List.mem_map.mpr ⟨m, hm, rfl⟩)
    obtain ⟨rest, hrest⟩ := hl
    cases rest with
    | nil =>
      rw [List.append_nil] at hrest
      subst hrest
      exact .queued hindex rfl (List.prefix_refl _) (hentry n (hlisted entries rfl rfl))
    | cons m rest =>
      have hnext : l ++ [m] <+: front := ⟨rest, by rw [List.append_assoc]; exact hrest⟩
      have hmem : m ∈ entries := by
        apply hlist.2.1 m (hrequired m hnext)
        rw [List.append_assoc, hdirs _ hnext]
        simp
      exact .queued hindex rfl (hnext.trans (List.prefix_append _ _)) (hentry m hmem)
  | _ => simp_all [Action.byCopier]

/-- The copier reads the file, up to the creation of its copy. -/
theorem Ahead.advance_reading (hP : Place D new k j d front n) (h : Advance D old new s a s')
    (ha : a.byCopier = true) (hindex : s.index = j) (hpc : s.pc.reads = some (front ++ [n]))
    (hnode : s.fs.node (components d.1 ++ (front ++ [n])) = some (.regular c))
    (hcreate : a ≠ .create) : Ahead j front n s' := by
  have hpair : ∀ d', D.dirs[s.index]? = some d' → d' = d := by
    intro d' hd'
    rw [hindex, hP.pair] at hd'
    exact (Option.some.inj hd').symm
  cases h with
  | attachOld hpc' =>
    rw [hpc'] at hpc
    exact .reading hindex hpc
  | attachNew hpc' =>
    rw [hpc'] at hpc
    exact .reading hindex hpc
  | openFile hpc' =>
    rw [hpc'] at hpc
    exact .reading hindex hpc
  | openGone hpc' hd' hgone =>
    rw [hpc'] at hpc
    rw [hpair _ hd', Option.some.inj hpc, hnode] at hgone
    cases hgone
  | createGone => exact absurd rfl hcreate
  | create => exact absurd rfl hcreate
  | _ => simp_all [Action.byCopier, Pc.reads]

/-- The file stays before the copier until its copy is created. -/
theorem Ahead.advance (hP : Place D new k j d front n) (hA : Ahead j front n s)
    (hdirs : ∀ l, l <+: front → s.fs.node (components d.1 ++ l) = some .directory)
    (h : Advance D old new s a s') (ha : a.byCopier = true)
    (hlisted : ∀ entries, a = .list entries → s.index = j → s.pc.scans = some front → n ∈ entries)
    (hfound : s.index = j → s.pc.reads = some (front ++ [n]) ∨
      (∃ todo, a = .pop ∧ s.todo = (front ++ [n]) :: todo) →
        s.fs.node (components new) = some (.regular c)) :
    Ahead j front n s' ∨ a = .create ∧ s.index = j ∧ s.pc.reads = some (front ++ [n]) := by
  cases hA with
  | later hindex => exact Or.inl (advance_later hP h ha hindex)
  | starting hindex hpc => exact Or.inl (advance_starting hP h ha hindex hpc)
  | queued hindex hpc hl hmem =>
    obtain ⟨hindex', hpc', hmem'⟩ | ⟨rfl, todo, htodo⟩ := h.todo_mem ha hpc hmem
    · exact Or.inl (.queued (hindex'.trans hindex) hpc' hl hmem')
    · refine Or.inl (advance_pop (c := c) hP hdirs h hindex hl htodo fun hfile => ?_)
      rw [hfile, ← hP.source]
      exact hfound hindex (Or.inr ⟨todo, rfl, by rw [htodo, hfile]⟩)
  | scanned hindex hpc hl hrequired =>
    refine Or.inl
      (advance_scanned hP hdirs h ha hindex hpc hl hrequired fun entries heq hfront => ?_)
    exact hlisted entries heq hindex (by rw [hpc, hfront]; rfl)
  | reading hindex hpc =>
    by_cases hcreate : a = .create
    · exact Or.inr ⟨hcreate, hindex, hpc⟩
    · refine Or.inl (advance_reading (c := c) hP h ha hindex hpc ?_ hcreate)
      rw [← hP.source]
      exact hfound hindex (Or.inl hpc)

/-- Where the copier stands, for a concrete run. -/
theorem ahead_iff : (s.index < j ∧ s.pc.ends = false ∨ s.index = j ∧ (s.pc.starts = true ∨
    s.pc.working = true ∧ (∃ l ∈ s.todo, l <+: front ++ [n]) ∨
    (∃ x ∈ s.pc.listing, x.1 <+: front ∧ ∀ m ∈ (front.drop x.1.length).head?,
      x.2.contains m = true) ∨
    s.pc.reads = some (front ++ [n]))) ↔ Ahead j front n s := by
  constructor
  · rintro (⟨hindex, hpc⟩ | ⟨hindex, hpc | ⟨hpc, l, hmem, hl⟩ | ⟨x, hx, hl, hrequired⟩ | hpc⟩)
    · refine .later hindex fun r hr => ?_
      rw [hr] at hpc
      cases hpc
    · refine .starting hindex ?_
      cases hs : s.pc <;> rw [hs] at hpc <;> cases hpc
    · exact .queued hindex hpc hl hmem
    · cases hs : s.pc <;> rw [hs] at hx <;> cases hx
      refine .scanned hindex hs hl fun m hm => List.contains_iff_mem.mp (hrequired m ?_)
      obtain ⟨rest, hrest⟩ := hm
      rw [← hrest, List.append_assoc, List.drop_left]
      rfl
    · exact .reading hindex hpc
  · intro hA
    cases hA with
    | later hindex hpc =>
      refine Or.inl ⟨hindex, ?_⟩
      cases hs : s.pc with
      | returned r => exact absurd hs (hpc r)
      | _ => rfl
    | starting hindex hpc => exact Or.inr ⟨hindex, Or.inl (by rw [hpc]; rfl)⟩
    | queued hindex hpc hl hmem => exact Or.inr ⟨hindex, Or.inr (Or.inl ⟨hpc, _, hmem, hl⟩)⟩
    | @scanned l required hindex hpc hl hrequired =>
      refine Or.inr ⟨hindex, Or.inr (Or.inr (Or.inl ⟨(l, required), by rw [hpc]; rfl, hl, ?_⟩))⟩
      intro m hm
      obtain ⟨rest, rfl⟩ := hl
      rw [List.drop_left] at hm
      obtain ⟨rest, rfl⟩ := List.head?_eq_some_iff.mp hm
      refine List.contains_iff_mem.mpr (hrequired m ⟨rest, ?_⟩)
      rw [List.append_assoc]
      rfl
    | reading hindex hpc => exact Or.inr ⟨hindex, Or.inr (Or.inr (Or.inr hpc))⟩

instance decidableAhead (j : Nat) (front : List Path) (n : Path) (s : State) :
    Decidable (Ahead j front n s) := decidable_of_iff _ ahead_iff

/-- The file stays before the copier while it stands still. -/
theorem Ahead.aside (hA : Ahead j front n s) (hpc : s'.pc = s.pc) (hindex : s'.index = s.index)
    (htodo : ∀ l ∈ s.todo, l ∈ s'.todo) : Ahead j front n s' := by
  cases hA with
  | later hj hr => exact .later (by rw [hindex]; exact hj) (by rw [hpc]; exact hr)
  | starting hj hr => exact .starting (hindex.trans hj) (hpc.trans hr)
  | queued hj hr hl hmem =>
    exact .queued (hindex.trans hj) (by rw [hpc]; exact hr) hl (htodo _ hmem)
  | scanned hj hr hl hrequired => exact .scanned (hindex.trans hj) (hpc.trans hr) hl hrequired
  | reading hj hr => exact .reading (hindex.trans hj) (by rw [hpc]; exact hr)

end

end TokuBackup.Moves
