import TokuBackup.HotCopy.Model

/-!
# Every file that the walk has reached is its copy

The files keep the invariant of their own machines, since a step touches one file and is a step
of its machine. The entries that were handled and those on the todo list explore the forest of
the trees, as for the copier alone. A handled file has been passed over to its end unless the
pass over it is going on, and the pass over a file that was not handled has not begun. So when
the walk is done, every file's pass is over, and a file on which no call is in flight is its
copy.
-/

namespace TokuBackup.HotCopy

open Kernel Copier Lib

/-! ## A call leaves the copier alone -/

section

variable {s s' : Convergence.State}

theorem unlock_copier (s : Convergence.State) (r : Range) :
    (Convergence.unlock s r).copier = s.copier := by
  unfold Convergence.unlock
  split <;> rfl

theorem useDestination_copier (s : Convergence.State) (id : Nat) (f : Content → Content) :
    (Convergence.useDestination s id f).copier = s.copier := by
  unfold Convergence.useDestination
  split <;> rfl

theorem moveFd_copier {fd : Nat} {a b : Convergence.FdStage}
    (hstep : Convergence.moveFd s fd a b = some s') : s'.copier = s.copier := by
  obtain ⟨d, -, -, rfl⟩ := Convergence.moveFd_some hstep
  rfl

theorem tryToRemoveDestination_copier (s : Convergence.State) :
    (Convergence.tryToRemoveDestination s).copier = s.copier := by
  obtain ⟨dest, hframe⟩ := Convergence.tryToRemoveDestination_frame s
  rw [hframe]

theorem tryToCreateDestinationFile_copier (s : Convergence.State) :
    (Convergence.tryToCreateDestinationFile s).copier = s.copier := by
  obtain ⟨dest, fresh, hframe⟩ := Convergence.tryToCreateDestinationFile_frame s
  rw [hframe]

theorem tryToRemoveLocked_copier (s : Convergence.State) :
    (Convergence.tryToRemoveLocked s).copier = s.copier := by
  obtain ⟨dest, l, hframe⟩ := Convergence.tryToRemoveLocked_frame s
  rw [hframe]

theorem stepThread_copier {t : Nat} (hstep : Convergence.stepThread s t = some s') :
    s'.copier = s.copier := by
  simp only [Convergence.stepThread] at hstep
  split at hstep
  case h_2 | h_3 | h_4 =>
    obtain ⟨l, -, rfl⟩ := Option.map_eq_some_iff.mp hstep
    rfl
  case h_1 | h_5 =>
    split at hstep
    · rw [Option.ite_none_right_eq_some] at hstep
      rw [← Option.some.inj hstep.2]
    · cases hstep
  case h_6 | h_7 =>
    rw [Option.ite_none_right_eq_some] at hstep
    rw [← Option.some.inj hstep.2]
  case h_8 =>
    split at hstep
    · rw [← Option.some.inj hstep]
    · cases hstep
  case h_9 | h_10 => rw [← Option.some.inj hstep]
  case h_11 =>
    rw [← Option.some.inj hstep]
    exact useDestination_copier s _ _
  case h_12 =>
    rw [← Option.some.inj hstep]
    exact unlock_copier s _
  case h_13 | h_14 => cases hstep

theorem app_copier {a : Convergence.Action} (ha : isApp a = true)
    (hstep : Convergence.step s a = some s') : s'.copier = s.copier := by
  cases a with
  | openReal fd =>
    simp only [Convergence.step] at hstep
    rw [← Option.some.inj (Option.ite_none_right_eq_some.mp hstep).2]
  | openAttach fd =>
    have hmoved := moveFd_copier hstep
    exact hmoved
  | openPublish fd => exact moveFd_copier hstep
  | openCapture fd => exact (moveFd_copier hstep).trans (tryToCreateDestinationFile_copier s)
  | closeBegin fd =>
    simp only [Convergence.step] at hstep
    split at hstep
    · cases hstep
    · exact moveFd_copier hstep
  | closeUnhook fd => exact (moveFd_copier hstep).trans (tryToRemoveDestination_copier s)
  | closeErase fd => exact moveFd_copier hstep
  | closeRelease fd => exact (moveFd_copier hstep).trans (tryToRemoveLocked_copier s)
  | closeReal fd =>
    simp only [Convergence.step] at hstep
    split at hstep
    · rw [← Option.some.inj (Option.ite_none_right_eq_some.mp hstep).2]
    · cases hstep
  | call t c =>
    simp only [Convergence.step] at hstep
    split at hstep
    · rw [← Option.some.inj (Option.ite_none_right_eq_some.mp hstep).2]
    · cases hstep
  | thread t => exact stepThread_copier hstep
  | copier n => cases ha
  | copierAbort disabled => cases ha

end

/-! ## The invariant -/

variable (D : DirectorySet) (tree : Fs)

/-- The copier alone, at the same place of its walk. -/
def walker (s : State) : Copier.State :=
  ⟨tree, fun _ => none, s.index, s.todo, .loop, s.handled⟩

/-- The part about the todo list: `pending` are the entries on it. -/
def Exploring (s : State) (seen : List Item) (pending : List (List Path))
    (later : List Item) : Prop :=
  Copier.Exploring D tree (walker tree s) seen pending later

/-- The part about the entries that were handled: `current` is the file whose pass is going
on. -/
structure Passed (s : State) (seen : List Item) (current : Option (List Path)) : Prop where
  done : ∀ i d rel, (i, rel) ∈ seen → D.dirs[i]? = some d →
    D.excludeCopy (entryPath d.1 rel) = false →
    isRegular (tree.node (components d.1 ++ rel)) = true →
    current ≠ some (components d.1 ++ rel) →
    (s.files (components d.1 ++ rel)).copier.pc = .over true
  fresh : ∀ i d rel, (i, rel) ∉ seen → D.dirs[i]? = some d →
    isRegular (tree.node (components d.1 ++ rel)) = true →
    (s.files (components d.1 ++ rel)).copier.pc = .start
  made : ∀ path, path ∈ s.made ↔ ∃ i d rel, (i, rel) ∈ seen ∧ D.dirs[i]? = some d ∧
    D.excludeCopy (entryPath d.1 rel) = false ∧
    tree.node (components d.1 ++ rel) = some .directory ∧ path = entryPath d.2 rel
  placed : DestinationsApart D → ∀ i d rel, (i, rel) ∈ seen → D.dirs[i]? = some d →
    D.excludeCopy (entryPath d.1 rel) = false →
    isRegular (tree.node (components d.1 ++ rel)) = true →
    s.placed (components d.2 ++ rel) = some (components d.1 ++ rel)

/-- The pass over `file` is going on. -/
structure Underway (s : State) (seen : List Item) (file : List Path) : Prop where
  entry : ∃ d rel, D.dirs[s.index]? = some d ∧ (s.index, rel) ∈ seen ∧
    file = components d.1 ++ rel
  regular : isRegular (tree.node file) = true
  notOver : ∀ eof, (s.files file).copier.pc ≠ .over eof

/-- Where the walk is. -/
def Walk (s : State) (seen : List Item) (pending : List (List Path)) : Pc → Prop
  | .next => s.index ≤ D.dirs.length ∧ pending = [] ∧
      Exploring D tree s seen pending (rootsFrom D s.index) ∧ Passed D tree s seen none
  | .loop => s.index < D.dirs.length ∧
      Exploring D tree s seen pending (rootsFrom D (s.index + 1)) ∧ Passed D tree s seen none
  | .copying file => s.index < D.dirs.length ∧
      Exploring D tree s seen pending (rootsFrom D (s.index + 1)) ∧
      Passed D tree s seen (some file) ∧ Underway D tree s seen file
  | .returned r => r = 0 → pending = [] ∧
      Exploring D tree s seen pending [] ∧ Passed D tree s seen none
  | .stopped => True

structure Inv (s : State) : Prop where
  files : ∀ file, isRegular (tree.node file) = true → Convergence.Inv (s.files file)
  walk : ∃ seen pending, Walk D tree s seen pending s.pc

variable {D tree} {s s' : State} {seen : List Item} {pending : List (List Path)}
  {current : Option (List Path)} {d : Path × Path} {rel : List Path} {entries : List Path}

theorem inv_initial (h : Initial tree s) : Inv D tree s := by
  refine ⟨fun file hfile => Convergence.inv_initial (h.files file hfile), [], [], ?_⟩
  rw [h.pc]
  refine ⟨h.index ▸ Nat.zero_le _, rfl, ⟨h.handled, h.todo, ?_⟩, ?_, ?_, ?_, ?_⟩
  · rw [h.index, rootsFrom_zero]
    exact Explored.start (isForest D tree)
  · exact fun i d rel hmem => absurd hmem List.not_mem_nil
  · intro i d rel _ _ hregular
    rw [(h.files _ hregular).copier]
  · simp [h.made]
  · exact fun _ i d rel hmem => absurd hmem List.not_mem_nil

/-! ### What a step leaves alone -/

theorem Exploring.congr {later : List Item} (h : Exploring D tree s seen pending later)
    (htodo : s'.todo = s.todo) (hindex : s'.index = s.index) (hhandled : s'.handled = s.handled) :
    Exploring D tree s' seen pending later :=
  h.of_eq hindex hhandled htodo

theorem Passed.congr (h : Passed D tree s seen current)
    (hcopier : ∀ file, (s'.files file).copier = (s.files file).copier)
    (hmade : s'.made = s.made) (hplaced : s'.placed = s.placed) :
    Passed D tree s' seen current where
  done i d rel hmem hd hex hregular hne := by
    rw [hcopier]
    exact h.done i d rel hmem hd hex hregular hne
  fresh i d rel hmem hd hregular := by
    rw [hcopier]
    exact h.fresh i d rel hmem hd hregular
  made path := by
    rw [hmade]
    exact h.made path
  placed hdests i d rel hmem hd hex hregular := by
    rw [hplaced]
    exact h.placed hdests i d rel hmem hd hex hregular

theorem Underway.congr {file : List Path} (h : Underway D tree s seen file)
    (hcopier : ∀ file, (s'.files file).copier = (s.files file).copier)
    (hindex : s'.index = s.index) : Underway D tree s' seen file where
  entry := hindex ▸ h.entry
  regular := h.regular
  notOver eof := by
    rw [hcopier]
    exact h.notOver eof

/-- A step of a call: the walk does not notice it. -/
theorem Walk.congr {pc : Pc} (h : Walk D tree s seen pending pc)
    (hcopier : ∀ file, (s'.files file).copier = (s.files file).copier)
    (hmade : s'.made = s.made) (hplaced : s'.placed = s.placed) (htodo : s'.todo = s.todo)
    (hindex : s'.index = s.index) (hhandled : s'.handled = s.handled) :
    Walk D tree s' seen pending pc := by
  cases pc with
  | next =>
    obtain ⟨hle, hnil, hE, hP⟩ := h
    refine ⟨hindex ▸ hle, hnil, ?_, hP.congr hcopier hmade hplaced⟩
    rw [hindex]
    exact hE.congr htodo hindex hhandled
  | loop =>
    obtain ⟨hlt, hE, hP⟩ := h
    refine ⟨hindex ▸ hlt, ?_, hP.congr hcopier hmade hplaced⟩
    rw [hindex]
    exact hE.congr htodo hindex hhandled
  | copying file =>
    obtain ⟨hlt, hE, hP, hU⟩ := h
    refine ⟨hindex ▸ hlt, ?_, hP.congr hcopier hmade hplaced, hU.congr hcopier hindex⟩
    rw [hindex]
    exact hE.congr htodo hindex hhandled
  | returned r =>
    intro hr
    obtain ⟨hnil, hE, hP⟩ := h hr
    exact ⟨hnil, hE.congr htodo hindex hhandled, hP.congr hcopier hmade hplaced⟩
  | stopped => trivial

theorem files_update {file : List Path} {f : Convergence.State}
    (h : ∀ file, isRegular (tree.node file) = true → Convergence.Inv (s.files file))
    (hf : isRegular (tree.node file) = true → Convergence.Inv f) :
    ∀ file', isRegular (tree.node file') = true →
      Convergence.Inv (Function.update s.files file f file') := by
  intro file' hregular
  by_cases heq : file' = file
  · subst heq
    rw [Function.update_self]
    exact hf hregular
  · rw [Function.update_of_ne heq]
    exact h file' hregular

theorem inv_app {x : Item} {a : Convergence.Action} (h : Inv D tree s)
    (hok : NoTruncateRace D s (.app x a)) (hstep : appStep D tree s x a = some s') :
    Inv D tree s' := by
  simp only [appStep] at hstep
  split at hstep
  · rename_i source dest hd
    rw [Option.ite_none_right_eq_some] at hstep
    obtain ⟨hguard, hstep⟩ := hstep
    obtain ⟨f, hf, rfl⟩ := Option.map_eq_some_iff.mp hstep
    simp only [Bool.and_eq_true] at hguard
    have hrace := hok (source, dest) hd
    obtain ⟨seen, pending, hwalk⟩ := h.walk
    refine ⟨files_update h.files fun hregular =>
      Convergence.inv_step (h.files _ hregular) hrace hf, seen, pending, ?_⟩
    refine hwalk.congr (fun file => ?_) rfl rfl rfl rfl rfl
    by_cases heq : file = components source ++ x.2
    · subst heq
      dsimp only
      rw [Function.update_self]
      exact app_copier hguard.1.1 hf
    · dsimp only
      rw [Function.update_of_ne heq]
  · cases hstep

/-! ### The walk -/

/-- The loop over the directories. -/
theorem inv_next (h : Inv D tree s) (hstep : step D tree s .next = some s') :
    Inv D tree s' := by
  obtain ⟨files, made, placed, index, todo, pc, handled⟩ := s
  obtain ⟨hfiles, seen, pending, hwalk⟩ := h
  cases pc with
  | next =>
    obtain ⟨hindex, rfl, hE, hP⟩ := hwalk
    simp only [step] at hstep
    split at hstep
    · rename_i hlt
      cases hstep
      have htodo : todo = [] := hE.todo
      subst htodo
      refine ⟨hfiles, seen, [[]], hlt, ⟨hE.handled, rfl, ?_⟩, hP.congr (fun _ => rfl) rfl rfl⟩
      have hexplored := hE.explored
      dsimp only at hexplored
      rw [rootsFrom_of_lt hlt] at hexplored
      exact hexplored
    · rename_i hge
      cases hstep
      refine ⟨hfiles, seen, [], fun _ =>
        ⟨rfl, ⟨hE.handled, hE.todo, ?_⟩, hP.congr (fun _ => rfl) rfl rfl⟩⟩
      have hexplored := hE.explored
      dsimp only at hexplored
      rw [rootsFrom_of_le (by omega)] at hexplored
      exact hexplored
  | loop =>
    obtain ⟨hindex, hE, hP⟩ := hwalk
    cases todo with
    | cons file todo => cases hstep
    | nil =>
      cases hstep
      have hpending : pending = [] := List.map_eq_nil_iff.mp hE.todo.symm
      subst hpending
      exact ⟨hfiles, seen, [], hindex, rfl, ⟨hE.handled, hE.todo, hE.explored⟩,
        hP.congr (fun _ => rfl) rfl rfl⟩
  | copying file => cases hstep
  | returned r => cases hstep
  | stopped => cases hstep

theorem copyStrippedFile_todoName {source dest : Path} (h : ∀ n ∈ rel, IsEntry n) :
    copyStrippedFile D tree s source dest (todoName rel) entries =
      copyFullPath D tree s (entryPath source rel) (entryPath dest rel) (slashed rel) entries := by
  by_cases hrel : rel = []
  · subst hrel
    rfl
  · rw [copyStrippedFile, if_neg fun hdot => hrel ((todoName_eq_dot h).mp hdot), entryPath,
      entryPath, if_neg hrel, if_neg hrel, todoName, if_neg hrel]

/-- The first entry of the todo list is taken off. -/
def taken (s : State) (rel : List Path) : State :=
  { s with todo := s.todo.tail, handled := s.handled ++ [(s.index, todoName rel)] }

/-- One place belongs to one entry. -/
theorem DirsApart.entry_unique {dir : Path × Path → Path} (h : DirsApart D dir) {i j : Nat}
    {d d' : Path × Path} {rel rel' : List Path} (hd : D.dirs[i]? = some d)
    (hd' : D.dirs[j]? = some d')
    (heq : components (dir d) ++ rel = components (dir d') ++ rel') : i = j ∧ rel = rel' := by
  have hij : i = j := by
    rcases List.prefix_or_prefix_of_prefix (List.prefix_append (components (dir d)) rel)
      (heq ▸ List.prefix_append (components (dir d')) rel') with hin | hin
    · exact h i j d d' hd hd' hin
    · exact (h j i d' d hd' hd hin).symm
  subst hij
  rw [hd, Option.some.injEq] at hd'
  subst hd'
  exact ⟨rfl, List.append_cancel_left heq⟩

section

variable (hd : D.dirs[s.index]? = some d)

include hd

/-- An entry that has been handled by now was handled before or is the last one. -/
theorem handled_cases {i : Nat} {d' : Path × Path} {rel' : List Path}
    (hmem : (i, rel') ∈ seen ++ [(s.index, rel)]) (hd' : D.dirs[i]? = some d') :
    (i, rel') ∈ seen ∨ i = s.index ∧ rel' = rel ∧ d' = d := by
  rcases List.mem_append.mp hmem with hold | hnew
  · exact Or.inl hold
  · cases List.mem_singleton.mp hnew
    rw [hd, Option.some.injEq] at hd'
    exact Or.inr ⟨rfl, rfl, hd'.symm⟩

/-- The entry is excluded. -/
theorem Passed.skip (hP : Passed D tree s seen none)
    (hex : D.excludeCopy (entryPath d.1 rel) = true) :
    Passed D tree s (seen ++ [(s.index, rel)]) none where
  done i d' rel' hmem hd' hex' hregular hne := by
    rcases handled_cases hd hmem hd' with hold | ⟨rfl, rfl, rfl⟩
    · exact hP.done i d' rel' hold hd' hex' hregular hne
    · rw [hex] at hex'
      cases hex'
  fresh i d' rel' hmem hd' hregular :=
    hP.fresh i d' rel' (fun h => hmem (List.mem_append_left _ h)) hd' hregular
  made path := by
    rw [hP.made]
    constructor
    · rintro ⟨i, d', rel', hmem, hrest⟩
      exact ⟨i, d', rel', List.mem_append_left _ hmem, hrest⟩
    · rintro ⟨i, d', rel', hmem, hd', hex', hrest⟩
      rcases handled_cases hd hmem hd' with hold | ⟨rfl, rfl, rfl⟩
      · exact ⟨i, d', rel', hold, hd', hex', hrest⟩
      · rw [hex] at hex'
        cases hex'
  placed hdests i d' rel' hmem hd' hex' hregular := by
    rcases handled_cases hd hmem hd' with hold | ⟨rfl, rfl, rfl⟩
    · exact hP.placed hdests i d' rel' hold hd' hex' hregular
    · rw [hex] at hex'
      cases hex'

/-- The entry is a regular file: the pass over it begins. -/
theorem Passed.begin (hP : Passed D tree s seen none)
    (hregular : isRegular (tree.node (components d.1 ++ rel)) = true)
    (hfiles : s'.files = s.files) (hmade : s'.made = s.made)
    (hplaced : s'.placed =
      Function.update s.placed (components d.2 ++ rel) (some (components d.1 ++ rel))) :
    Passed D tree s' (seen ++ [(s.index, rel)]) (some (components d.1 ++ rel)) where
  done i d' rel' hmem hd' hex' hregular' hne := by
    rw [hfiles]
    rcases handled_cases hd hmem hd' with hold | ⟨rfl, rfl, rfl⟩
    · exact hP.done i d' rel' hold hd' hex' hregular' (by simp)
    · exact absurd rfl hne
  fresh i d' rel' hmem hd' hregular' := by
    rw [hfiles]
    exact hP.fresh i d' rel' (fun h => hmem (List.mem_append_left _ h)) hd' hregular'
  made path := by
    rw [hmade, hP.made]
    constructor
    · rintro ⟨i, d', rel', hmem, hrest⟩
      exact ⟨i, d', rel', List.mem_append_left _ hmem, hrest⟩
    · rintro ⟨i, d', rel', hmem, hd', hex', hnode, hpath⟩
      rcases handled_cases hd hmem hd' with hold | ⟨rfl, rfl, rfl⟩
      · exact ⟨i, d', rel', hold, hd', hex', hnode, hpath⟩
      · rw [hnode] at hregular
        cases hregular
  placed hdests i d' rel' hmem hd' hex' hregular' := by
    rw [hplaced]
    by_cases hplace : components d'.2 ++ rel' = components d.2 ++ rel
    · -- only the new entry has this place
      obtain ⟨rfl, rfl⟩ := hdests.entry_unique hd' hd hplace
      rw [hd, Option.some.injEq] at hd'
      subst hd'
      rw [Function.update_self]
    · rw [Function.update_of_ne hplace]
      rcases handled_cases hd hmem hd' with hold | ⟨rfl, rfl, rfl⟩
      · exact hP.placed hdests i d' rel' hold hd' hex' hregular'
      · exact absurd rfl hplace

/-- The entry is a directory. -/
theorem Passed.make (hP : Passed D tree s seen none)
    (hex : D.excludeCopy (entryPath d.1 rel) = false)
    (hnode : tree.node (components d.1 ++ rel) = some .directory)
    (hfiles : s'.files = s.files) (hmade : s'.made = s.made ++ [entryPath d.2 rel])
    (hplaced : s'.placed = s.placed) : Passed D tree s' (seen ++ [(s.index, rel)]) none where
  done i d' rel' hmem hd' hex' hregular hne := by
    rw [hfiles]
    rcases handled_cases hd hmem hd' with hold | ⟨rfl, rfl, rfl⟩
    · exact hP.done i d' rel' hold hd' hex' hregular hne
    · rw [hnode] at hregular
      cases hregular
  fresh i d' rel' hmem hd' hregular := by
    rw [hfiles]
    exact hP.fresh i d' rel' (fun h => hmem (List.mem_append_left _ h)) hd' hregular
  made path := by
    rw [hmade, List.mem_append, hP.made, List.mem_singleton]
    constructor
    · rintro (⟨i, d', rel', hmem, hrest⟩ | rfl)
      · exact ⟨i, d', rel', List.mem_append_left _ hmem, hrest⟩
      · exact ⟨s.index, d, rel, List.mem_append_right _ List.mem_cons_self, hd, hex, hnode, rfl⟩
    · rintro ⟨i, d', rel', hmem, hd', hrest⟩
      rcases handled_cases hd hmem hd' with hold | ⟨rfl, rfl, rfl⟩
      · exact Or.inl ⟨i, d', rel', hold, hd', hrest⟩
      · exact Or.inr hrest.2.2
  placed hdests i d' rel' hmem hd' hex' hregular := by
    rw [hplaced]
    rcases handled_cases hd hmem hd' with hold | ⟨rfl, rfl, rfl⟩
    · exact hP.placed hdests i d' rel' hold hd' hex' hregular
    · rw [hnode] at hregular
      cases hregular

end

section

variable (hd : D.dirs[s.index]? = some d)
  (hE : Exploring D tree s seen (rel :: pending) (rootsFrom D (s.index + 1)))

include hE

/-- The entry is handled and has no children. -/
theorem taken_leaf (hleaf : children D tree (s.index, rel) = []) (hindex : s'.index = s.index)
    (htodo : s'.todo = s.todo.tail)
    (hhandled : s'.handled = s.handled ++ [(s.index, todoName rel)]) :
    Exploring D tree s' (seen ++ [(s.index, rel)]) pending (rootsFrom D (s'.index + 1)) := by
  rw [hindex]
  exact Copier.Exploring.pop_leaf hE hleaf hindex hhandled htodo

include hd

theorem handled_of (hsource : ∀ d ∈ D.dirs, tree.node (components d.1) ≠ none) :
    Handled D tree d.1 rel := by
  have hreach := hE.explored.reach (s.index, rel)
    (List.mem_append_right _ List.mem_cons_self)
  rw [reach_iff hsource] at hreach
  obtain ⟨d', hd', hrel⟩ := hreach
  rw [hd, Option.some.injEq] at hd'
  rw [hd']
  exact hrel

/-- The entry is handled, and its children come on. -/
theorem taken_directory (hex : D.excludeCopy (entryPath d.1 rel) = false)
    (hlisting : IsListing tree (components d.1 ++ rel) entries) (hindex : s'.index = s.index)
    (htodo : s'.todo = s.todo.tail ++ dirEntries (slashed rel) entries)
    (hhandled : s'.handled = s.handled ++ [(s.index, todoName rel)]) :
    Exploring D tree s' (seen ++ [(s.index, rel)])
      (pending ++ (entries.filter fun name => !DoBackup.isDot name).map fun n => rel ++ [n])
      (rootsFrom D (s'.index + 1)) := by
  rw [hindex]
  have hchildren : children D tree (s.index, rel) =
      (tree.names (components d.1 ++ rel)).map fun n => (s.index, rel ++ [n]) := by
    rw [children, hd]
    dsimp only
    rw [hex]
    rfl
  refine Copier.Exploring.pop hE hindex hhandled ?_ ?_
  · exact htodo.trans (congrArg (s.todo.tail ++ ·) dirEntries_eq)
  · change List.Perm _ (children D tree (s.index, rel))
    rw [hchildren, List.map_map]
    exact hlisting.map _

end

/-- No names are listed below a regular file. -/
theorem children_regular (hd : D.dirs[s.index]? = some d)
    (hregular : isRegular (tree.node (components d.1 ++ rel)) = true) :
    children D tree (s.index, rel) = [] := by
  rw [List.eq_nil_iff_forall_not_mem]
  intro y hy
  obtain ⟨d', n, hd', -, -, hn⟩ := mem_children.mp hy
  rw [hd, Option.some.injEq] at hd'
  subst hd'
  rw [← List.append_assoc] at hn
  rw [Fs.parent_directory hn] at hregular
  cases hregular

section

variable (hsource : ∀ d ∈ D.dirs, tree.node (components d.1) ≠ none)
  (hfiles : ∀ file, isRegular (tree.node file) = true → Convergence.Inv (s.files file))
  (hd : D.dirs[s.index]? = some d)
  (hE : Exploring D tree s seen (rel :: pending) (rootsFrom D (s.index + 1)))
  (hP : Passed D tree s seen none)

include hsource hfiles hd hE hP

/-- Handling an entry keeps the invariant, and is possible whatever the entry is. -/
theorem popped :
    (∀ entries s', copyStrippedFile D tree (taken s rel) d.1 d.2 (todoName rel) entries = some s' →
      Inv D tree s') ∧
    ∃ entries s', copyStrippedFile D tree (taken s rel) d.1 d.2 (todoName rel)
      entries = some s' := by
  have hhandled := handled_of hd hE hsource
  have hentry := hhandled.isEntry
  have hlt := (List.getElem?_eq_some_iff.mp hd).1
  have hcomponents := components_entryPath d.1 hentry
  simp only [copyStrippedFile_todoName hentry]
  cases hex : D.excludeCopy (entryPath d.1 rel) with
  | true =>
    simp only [copyFullPath, hex, if_true]
    refine ⟨fun entries s' hs' => ?_, [], _, rfl⟩
    cases hs'
    have hleaf : children D tree (s.index, rel) = [] := by
      rw [children, hd]
      exact if_pos hex
    exact ⟨hfiles, seen ++ [(s.index, rel)], pending, hlt, taken_leaf hE hleaf rfl rfl rfl,
      (hP.skip hd hex).congr (fun _ => rfl) rfl rfl⟩
  | false =>
    obtain ⟨v, hnode⟩ := Option.ne_none_iff_exists'.mp hhandled.1
    have hstat : tree.stat (entryPath d.1 rel) = .ok v := by
      rw [Fs.stat, hcomponents, hnode]
    cases v with
    | regular content =>
      simp only [copyFullPath, hex, hstat, Bool.false_eq_true, if_false, hcomponents,
        components_entryPath d.2 hentry]
      refine ⟨fun entries s' hs' => ?_, [], _, rfl⟩
      cases hs'
      have hregular : isRegular (tree.node (components d.1 ++ rel)) = true := by
        rw [hnode]
        rfl
      have hnew : (s.index, rel) ∉ seen := Copier.Exploring.new hE
      refine ⟨hfiles, seen ++ [(s.index, rel)], pending, hlt,
        taken_leaf hE (children_regular hd hregular) rfl rfl rfl,
        hP.begin hd hregular rfl rfl rfl, ?_, hregular, fun eof hover => ?_⟩
      · exact ⟨d, rel, hd, List.mem_append_right _ List.mem_cons_self, rfl⟩
      · have hstart := hP.fresh s.index d rel hnew hd hregular
        exact absurd (hstart.symm.trans hover) (by simp)
    | directory =>
      simp only [copyFullPath, hex, hstat, Bool.false_eq_true, if_false, hcomponents]
      constructor
      · intro entries s' hs'
        rw [Option.ite_none_right_eq_some] at hs'
        obtain ⟨hlisting, hs'⟩ := hs'
        cases hs'
        exact ⟨hfiles, _, _, hlt, taken_directory hd hE hex hlisting rfl rfl rfl,
          hP.make hd hex hnode rfl rfl rfl⟩
      · refine ⟨tree.names (components d.1 ++ rel), ?_⟩
        rw [if_pos (isListing_names _ _)]
        exact ⟨_, rfl⟩

end

/-- The loop over the todo list. -/
theorem loop_head (hpc : s.pc = .loop) (hwalk : Walk D tree s seen pending s.pc)
    {file : Path} {todo : List Path} (htodo : s.todo = file :: todo) :
    ∃ d rel later, D.dirs[s.index]? = some d ∧ pending = rel :: later ∧ file = todoName rel ∧
      Exploring D tree s seen (rel :: later) (rootsFrom D (s.index + 1)) ∧
      Passed D tree s seen none := by
  rw [hpc] at hwalk
  obtain ⟨hlt, hE, hP⟩ := hwalk
  have hlist : file :: todo = pending.map todoName := htodo.symm.trans hE.todo
  cases pending with
  | nil => cases hlist
  | cons rel later =>
    rw [List.map_cons, List.cons.injEq] at hlist
    exact ⟨_, rel, later, List.getElem?_eq_getElem hlt, rfl, hlist.1, hE, hP⟩

theorem inv_pop (hsource : ∀ d ∈ D.dirs, tree.node (components d.1) ≠ none)
    (h : Inv D tree s) (hstep : step D tree s (.pop entries) = some s') : Inv D tree s' := by
  simp only [step] at hstep
  split at hstep
  · rename_i file todo source dest hpc htodo hdir
    obtain ⟨seen, pending, hwalk⟩ := h.walk
    obtain ⟨d, rel, later, hd, -, rfl, hE, hP⟩ := loop_head hpc hwalk htodo
    rw [hd, Option.some.injEq] at hdir
    subst hdir
    have htaken : taken s rel =
        { s with todo := todo, handled := s.handled ++ [(s.index, todoName rel)] } := by
      rw [taken, htodo]
      rfl
    rw [← htaken] at hstep
    exact (popped hsource h.files hd hE hP).1 entries s' hstep
  · cases hstep

/-! ### The pass over a file -/

section

variable {file : List Path} {f : Convergence.State}

/-- The files behind and before the one that is passed over. -/
theorem Passed.update (hP : Passed D tree s seen (some file)) (hapart : SourcesApart D)
    (hU : Underway D tree s seen file) (hfiles : s'.files = Function.update s.files file f)
    (hmade : s'.made = s.made) (hplaced : s'.placed = s.placed) {current : Option (List Path)}
    (hcurrent : current = some file ∨ f.copier.pc = .over true) :
    Passed D tree s' seen current where
  done i d rel hmem hd hex hregular hne := by
    rw [hfiles]
    by_cases heq : components d.1 ++ rel = file
    · rw [heq, Function.update_self]
      rcases hcurrent with hcurrent | hover
      · rw [heq] at hne
        exact absurd hcurrent hne
      · exact hover
    · rw [Function.update_of_ne heq]
      exact hP.done i d rel hmem hd hex hregular fun h => heq (Option.some.inj h).symm
  fresh i d rel hmem hd hregular := by
    obtain ⟨d', rel', hd', hmem', hfile⟩ := hU.entry
    have hne : components d.1 ++ rel ≠ file := by
      intro heq
      obtain ⟨rfl, rfl⟩ := hapart.entry_unique hd hd' (heq.trans hfile)
      exact hmem hmem'
    rw [hfiles, Function.update_of_ne hne]
    exact hP.fresh i d rel hmem hd hregular
  made path := by
    rw [hmade]
    exact hP.made path
  placed hdests i d rel hmem hd hex hregular := by
    rw [hplaced]
    exact hP.placed hdests i d rel hmem hd hex hregular

theorem inv_copyStep {a : Convergence.Action} (hapart : SourcesApart D) (h : Inv D tree s)
    (hrace : ∀ f, Convergence.NoTruncateRace f a) (hstep : copyStep s a = some s') :
    Inv D tree s' := by
  simp only [copyStep] at hstep
  split at hstep
  · rename_i file hpc
    obtain ⟨f, hf, rfl⟩ := Option.map_eq_some_iff.mp hstep
    obtain ⟨seen, pending, hwalk⟩ := h.walk
    rw [hpc] at hwalk
    obtain ⟨hlt, hE, hP, hU⟩ := hwalk
    have hfiles := files_update h.files fun hregular =>
      Convergence.inv_step (h.files file hregular) (hrace _) hf
    refine ⟨hfiles, seen, pending, ?_⟩
    by_cases hover : ∃ eof, f.copier.pc = .over eof
    · obtain ⟨eof, hover⟩ := hover
      cases eof with
      | true =>
        simp only [hover, afterPass]
        refine ⟨hlt, hE.congr rfl rfl rfl, ?_⟩
        apply hP.update hapart hU _ _ _ (Or.inr hover)
        all_goals rfl
      | false =>
        simp only [hover, afterPass]
        trivial
    · have hafter : afterPass file f.copier.pc = .copying file := by
        cases hpc' : f.copier.pc with
        | «over» eof => exact absurd ⟨eof, hpc'⟩ hover
        | _ => rfl
      simp only [hafter]
      refine ⟨hlt, hE.congr rfl rfl rfl, ?_, hU.entry, hU.regular, fun eof hpc' => ?_⟩
      · apply hP.update (f := f) hapart hU _ _ _ (Or.inl rfl)
        all_goals rfl
      · dsimp only at hpc'
        rw [Function.update_self] at hpc'
        exact hover ⟨eof, hpc'⟩
  · cases hstep

end

theorem inv_step (hsource : ∀ d ∈ D.dirs, tree.node (components d.1) ≠ none)
    (hapart : SourcesApart D) {a : Action} (h : Inv D tree s) (hok : NoTruncateRace D s a)
    (hstep : step D tree s a = some s') : Inv D tree s' := by
  cases a with
  | next => exact inv_next h hstep
  | pop entries => exact inv_pop hsource h hstep
  | copier n => exact inv_copyStep (a := .copier n) hapart h (fun _ => trivial) hstep
  | copierAbort disabled => 
    exact inv_copyStep (a := .copierAbort disabled) hapart h (fun _ => trivial) hstep
  | app x a => exact inv_app h hok hstep
  | fail r =>
    have hstopped : ∀ r, r ≠ 0 → Inv D tree { s with pc := .returned r } := fun r hr =>
      ⟨h.files, [], [], fun hzero => absurd hzero hr⟩
    simp only [step] at hstep
    split at hstep
    · cases hstep
    · cases hstep
    · split at hstep
      · cases hstep
      · rename_i hr
        cases hstep
        exact hstopped r hr

instance (D : DirectorySet) (s : State) : ∀ a, Decidable (NoTruncateRace D s a)
  | .app x a => inferInstanceAs (Decidable
      (∀ d ∈ D.dirs[x.1]?, Convergence.NoTruncateRace (s.files (components d.1 ++ x.2)) a))
  | .next | .pop _ | .copier _ | .copierAbort _ | .fail _ => isTrue trivial

theorem inv_run (hsource : ∀ d ∈ D.dirs, tree.node (components d.1) ≠ none)
    (hapart : SourcesApart D) {t : State} {as : List Action} (hs : Initial tree s)
    (hok : RunOk (step D tree) (NoTruncateRace D) s as)
    (hrun : run (step D tree) s as = some t) : Inv D tree t :=
  run_invariant (fun _ _ _ h hok hstep => inv_step hsource hapart h hok hstep) (inv_initial hs)
    hok hrun

/-! ## The copy of the trees -/

/-- The walk is done: what can be reached was handled. -/
theorem Inv.returned (h : Inv D tree s) (hpc : s.pc = .returned 0)
    (hsource : ∀ d ∈ D.dirs, tree.node (components d.1) ≠ none) :
    ∃ seen, Passed D tree s seen none ∧ ∀ i rel,
      (i, rel) ∈ seen ↔ ∃ d, D.dirs[i]? = some d ∧ Handled D tree d.1 rel := by
  obtain ⟨seen, pending, hwalk⟩ := h.walk
  rw [hpc] at hwalk
  obtain ⟨rfl, hE, hP⟩ := hwalk rfl
  refine ⟨seen, hP, fun i rel => ?_⟩
  have hexplored := hE.explored
  rw [List.map_nil, List.nil_append] at hexplored
  rw [hexplored.complete.2, reach_iff hsource]

/-- One directory with a file that two fds are open on. -/
def oneFile : State where
  files _ := Convergence.twoFds
  made := []
  placed _ := none
  index := 0
  todo := []
  pc := .next
  handled := []

theorem initial_oneFile : Initial smallTree oneFile where
  files _ _ := Convergence.initial_twoFds
  made := rfl
  placed _ := rfl
  index := rfl
  todo := rfl
  pc := rfl
  handled := rfl

theorem oneDirectory_apart (dir : Path × Path → Path) : DirsApart oneDirectory dir := by
  intro i j d d' hd hd' _
  have hi := (List.getElem?_eq_some_iff.mp hd).1
  have hj := (List.getElem?_eq_some_iff.mp hd').1
  simp only [oneDirectory, List.length_cons, List.length_nil] at hi hj
  omega

end TokuBackup.HotCopy
