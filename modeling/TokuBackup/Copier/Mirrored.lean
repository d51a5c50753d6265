import TokuBackup.Copier.Invariant

/-!
# The destinations, the file table and the todo list under one step

What each part of the invariant needs to hold again after a part of a step: the destinations
when one entry of them changes, the file table when a source file is taken and given back, and
the todo list when its first entry is handled.
-/

namespace TokuBackup.Copier

open Kernel Lib

variable {D : DirectorySet} {fs₀ fs fs' : Fs} {table₀ : Path → Option SourceFile}
  {seen seen' : List Item} {cur cur' : Current} {d d' : Path × Path} {i j : Nat}
  {rel rel' : List Path} {x y : Item} {source : Path} {v : Node} {content : Content} {w : Nat}

/-! ## The destinations -/

theorem copyOf_ne (h : y ≠ x) : copyOf (some (x, w)) y v = v := by
  rw [copyOf]
  exact if_neg fun hxy => h hxy.symm

theorem copyOf_self : copyOf (some (x, w)) x v = cutNode w v := if_pos rfl

theorem image_copied (hx : x ∈ seen) (hex : D.excludeCopy (entryPath source x.2) = false) :
    image D fs₀ seen cur x source = (fs₀.node (components source ++ x.2)).map (copyOf cur x) :=
  if_pos ⟨hx, hex⟩

theorem image_new (hx : x ∉ seen) (hrel : x.2 ≠ []) : image D fs₀ seen cur x source = none := by
  rw [image, if_neg fun h => hx h.1, if_neg hrel]

theorem image_excluded (hex : D.excludeCopy (entryPath source x.2) = true) :
    image D fs₀ seen cur x source = if x.2 = [] then some .directory else none := by
  rw [image, if_neg]
  rw [hex]
  exact fun h => Bool.false_ne_true h.2.symm

/-- Before anything is handled, the destinations are empty. -/
theorem Quiet.mirrored (hQ : Quiet D fs₀ table₀) : Mirrored D fs₀ [] none fs₀ where
  outside _ _ := rfl
  inside i d rel hd := by
    have hmem := List.mem_of_getElem? hd
    rw [image, if_neg fun h => List.not_mem_nil h.1]
    split
    · rename_i hrel
      dsimp only at hrel
      rw [hrel, List.append_nil]
      exact hQ.dest_directory d hmem
    · rename_i hrel
      exact hQ.below_dest_none hmem hrel

/-- One entry of a destination changes. -/
theorem Mirrored.update (hQ : Quiet D fs₀ table₀) (hdiffer : DestinationsDiffer D)
    (hM : Mirrored D fs₀ seen cur fs) (hd : D.dirs[i]? = some d)
    (hother : ∀ k, k ≠ components d.2 ++ rel → fs'.node k = fs.node k)
    (hhere : fs'.node (components d.2 ++ rel) = image D fs₀ seen' cur' (i, rel) d.1)
    (hseen : ∀ y, y ≠ (i, rel) → (y ∈ seen' ↔ y ∈ seen))
    (hcur : ∀ y v, y ≠ (i, rel) → copyOf cur' y v = copyOf cur y v) :
    Mirrored D fs₀ seen' cur' fs' where
  outside l hl := by
    rw [hother l, hM.outside l hl]
    rintro rfl
    exact hl d (List.mem_of_getElem? hd) (List.prefix_append _ _)
  inside j d' rel' hd' := by
    by_cases hsame : ((j, rel') : Item) = (i, rel)
    · obtain ⟨rfl, rfl⟩ := Prod.mk.inj hsame
      rw [hd, Option.some.injEq] at hd'
      rw [← hd']
      exact hhere
    · rw [hother, hM.inside j d' rel' hd']
      · have hfun : copyOf cur' (j, rel') = copyOf cur (j, rel') :=
          funext fun v => hcur (j, rel') v hsame
        simp only [image, hseen _ hsame, hfun]
      · intro heq
        obtain ⟨rfl, rfl⟩ := hQ.dest_apart hdiffer hd' hd heq
        exact hsame rfl

theorem mem_seen_concat : ∀ y, y ≠ x → (y ∈ seen ++ [x] ↔ y ∈ seen) := by
  intro y hy
  rw [List.mem_append, List.mem_singleton]
  exact or_iff_left hy

/-- An entry is handled and nothing is copied for it: it is excluded, or it is a root. -/
theorem Mirrored.skip (hQ : Quiet D fs₀ table₀) (hdiffer : DestinationsDiffer D)
    (hM : Mirrored D fs₀ seen none fs) (hd : D.dirs[i]? = some d) (hnew : (i, rel) ∉ seen)
    (h : D.excludeCopy (entryPath d.1 rel) = true ∨ rel = []) :
    Mirrored D fs₀ (seen ++ [(i, rel)]) none fs := by
  apply hM.update hQ hdiffer hd (fun _ _ => rfl) _ mem_seen_concat fun _ _ _ => rfl
  rw [hM.inside i d rel hd]
  cases hex : D.excludeCopy (entryPath d.1 rel) with
  | true => rw [image_excluded hex, image_excluded hex]
  | false =>
    have hrel : rel = [] := h.resolve_left (by rw [hex]; exact Bool.false_ne_true)
    subst hrel
    rw [image_copied (List.mem_append_right _ List.mem_cons_self) hex, List.append_nil,
      hQ.source_directory d (List.mem_of_getElem? hd), image, if_neg fun h => hnew h.1, if_pos rfl]
    rfl

/-- An entry is created. -/
theorem Mirrored.add (hQ : Quiet D fs₀ table₀) (hdiffer : DestinationsDiffer D)
    (hM : Mirrored D fs₀ seen none fs) (hd : D.dirs[i]? = some d)
    (hex : D.excludeCopy (entryPath d.1 rel) = false)
    (hsource : fs₀.node (components d.1 ++ rel) = some v)
    (hcur : ∀ y v, y ≠ (i, rel) → copyOf cur y v = v)
    (hnode : ∀ k, fs'.node k =
      if k = components d.2 ++ rel then some (copyOf cur (i, rel) v) else fs.node k) :
    Mirrored D fs₀ (seen ++ [(i, rel)]) cur fs' := by
  apply hM.update hQ hdiffer hd _ _ mem_seen_concat hcur
  · intro k hk
    rw [hnode, if_neg hk]
  · rw [hnode, if_pos rfl, image_copied (List.mem_append_right _ List.mem_cons_self) hex, hsource]
    rfl

/-- The copy in progress goes on. -/
theorem Mirrored.progress (hQ : Quiet D fs₀ table₀) (hdiffer : DestinationsDiffer D)
    {w' : Nat} (hM : Mirrored D fs₀ seen (some ((i, rel), w)) fs) (hd : D.dirs[i]? = some d)
    (hmem : (i, rel) ∈ seen) (hex : D.excludeCopy (entryPath d.1 rel) = false)
    (hsource : fs₀.node (components d.1 ++ rel) = some (.regular content))
    (hnode : ∀ k, fs'.node k = if k = components d.2 ++ rel then
      some (.regular (content.truncate w')) else fs.node k) :
    Mirrored D fs₀ seen (some ((i, rel), w')) fs' := by
  apply hM.update hQ hdiffer hd _ _ (fun _ _ => Iff.rfl)
  · intro y v hy
    rw [copyOf_ne hy, copyOf_ne hy]
  · intro k hk
    rw [hnode, if_neg hk]
  · rw [hnode, if_pos rfl, image_copied hmem hex, hsource, Option.map_some, copyOf_self]
    rfl

/-- The copy in progress is complete. -/
theorem Mirrored.complete (hQ : Quiet D fs₀ table₀) (hdiffer : DestinationsDiffer D)
    (hM : Mirrored D fs₀ seen (some ((i, rel), content.len)) fs) (hd : D.dirs[i]? = some d)
    (hmem : (i, rel) ∈ seen) (hex : D.excludeCopy (entryPath d.1 rel) = false)
    (hsource : fs₀.node (components d.1 ++ rel) = some (.regular content)) :
    Mirrored D fs₀ seen none fs := by
  apply hM.update hQ hdiffer hd (fun _ _ => rfl) _ (fun _ _ => Iff.rfl)
  · intro y v hy
    rw [copyOf_ne hy]
    rfl
  · rw [hM.inside i d rel hd, image_copied hmem hex, image_copied hmem hex, hsource,
      Option.map_some, Option.map_some, copyOf_self, cutNode, content.truncate_self]
    rfl

/-- The sources stay as they are. -/
theorem Mirrored.source_node (hQ : Quiet D fs₀ table₀) (hM : Mirrored D fs₀ seen cur fs)
    (hd : d ∈ D.dirs) (rel : List Path) :
    fs.node (components d.1 ++ rel) = fs₀.node (components d.1 ++ rel) :=
  hM.outside _ fun _ hd' => hQ.source_apart hd hd'

theorem Mirrored.source_names (hQ : Quiet D fs₀ table₀) (hM : Mirrored D fs₀ seen cur fs)
    (hd : d ∈ D.dirs) (rel : List Path) :
    (fs.names (components d.1 ++ rel)).Perm (fs₀.names (components d.1 ++ rel)) := by
  rw [List.perm_ext_iff_of_nodup Fs.names_nodup Fs.names_nodup]
  intro n
  rw [Fs.mem_names, Fs.mem_names, List.append_assoc, hM.source_node hQ hd]

/-- The directory of an entry to be copied is there. -/
theorem Mirrored.parent (hM : Mirrored D fs₀ seen none fs) (hd : D.dirs[i]? = some d)
    {n : Path} (hmem : (i, rel) ∈ seen) (h : Handled D fs₀ d.1 (rel ++ [n])) :
    fs.node (components d.2 ++ rel) = some .directory := by
  obtain ⟨hrel, hn⟩ := handled_concat.mp h
  rw [← List.append_assoc] at hn
  rw [hM.inside i d rel hd, image_copied hmem hrel.2, Fs.parent_directory hn]
  rfl

/-! ## The todo list -/

variable {s s' : State} {pending : List (List Path)} {later : List Item}

theorem Exploring.new (h : Exploring D fs₀ s seen (rel :: pending) later) :
    (s.index, rel) ∉ seen := h.explored.head_not_seen

theorem Exploring.handled_of (hQ : Quiet D fs₀ table₀) (hd : D.dirs[s.index]? = some d)
    (h : Exploring D fs₀ s seen (rel :: pending) later) : Handled D fs₀ d.1 rel := by
  have hreach := h.explored.reach (s.index, rel)
    (List.mem_append_right _ List.mem_cons_self)
  rw [reach_iff fun d hd => by rw [hQ.source_directory d hd]; exact Option.some_ne_none _] at hreach
  obtain ⟨d', hd', hrel⟩ := hreach
  rw [hd, Option.some.injEq] at hd'
  rw [hd']
  exact hrel

/-- The directory of an entry on the todo list has been handled. -/
theorem Exploring.parent_seen {n : Path}
    (h : Exploring D fs₀ s seen ((rel ++ [n]) :: pending) later) : (s.index, rel) ∈ seen := by
  have hparent := h.explored.parent (s.index, rel ++ [n])
    (List.mem_append_right _ List.mem_cons_self)
  rcases hparent with hroot | ⟨⟨j, rel'⟩, hmem, hchild⟩
  · have hnil := (mem_roots.mp hroot).1
    simp at hnil
  · obtain ⟨d, m, hd, hex, heq, hm⟩ := mem_children.mp hchild
    obtain ⟨h₁, h₂⟩ := Prod.mk.inj heq
    rw [h₁, (List.append_inj' h₂ rfl).1]
    exact hmem

/-- The first entry is handled, and its children, in some order, come on. -/
theorem Exploring.pop {found : List (List Path)}
    (h : Exploring D fs₀ s seen (rel :: pending) later) (hindex : s'.index = s.index)
    (hhandled : s'.handled = s.handled ++ [(s.index, todoName rel)])
    (htodo : s'.todo = s.todo.tail ++ found.map todoName)
    (hfound : (found.map fun rel => ((s.index, rel) : Item)).Perm
      (children D fs₀ (s.index, rel))) :
    Exploring D fs₀ s' (seen ++ [(s.index, rel)]) (pending ++ found) later where
  handled := by
    rw [hhandled, h.handled, List.map_append]
    rfl
  todo := by
    rw [htodo, h.todo, List.map_append]
    rfl
  explored := by
    rw [hindex, List.map_append]
    have hexplored := h.explored.pop (isForest D fs₀)
    apply hexplored.perm
    have hperm : (pending.map (fun rel => ((s.index, rel) : Item)) ++ later ++
        children D fs₀ (s.index, rel)).Perm (pending.map (fun rel => ((s.index, rel) : Item)) ++
        found.map (fun rel => ((s.index, rel) : Item)) ++ later) := by
      rw [List.append_assoc, List.append_assoc]
      apply List.Perm.append_left
      exact (hfound.symm.append_left later).trans List.perm_append_comm
    exact hperm

/-- The first entry is handled and has no children. -/
theorem Exploring.pop_leaf (h : Exploring D fs₀ s seen (rel :: pending) later)
    (hleaf : children D fs₀ (s.index, rel) = []) (hindex : s'.index = s.index)
    (hhandled : s'.handled = s.handled ++ [(s.index, todoName rel)])
    (htodo : s'.todo = s.todo.tail) :
    Exploring D fs₀ s' (seen ++ [(s.index, rel)]) pending later := by
  have hpop : Exploring D fs₀ s' (seen ++ [(s.index, rel)]) (pending ++ []) later := by
    apply h.pop hindex hhandled
    · rw [htodo, List.map_nil, List.append_nil]
    · rw [hleaf]
      exact List.Perm.refl _
  rwa [List.append_nil] at hpop

/-- A step that leaves the todo list alone. -/
theorem Exploring.of_eq (h : Exploring D fs₀ s seen pending later)
    (hindex : s'.index = s.index) (hhandled : s'.handled = s.handled) (htodo : s'.todo = s.todo) :
    Exploring D fs₀ s' seen pending later where
  handled := hhandled.trans h.handled
  todo := htodo.trans h.todo
  explored := hindex ▸ h.explored

end TokuBackup.Copier
