import TokuBackup.Copier.Mirrored

/-!
# The steps of the copier

Each step keeps the invariant: one lemma for each kind of entry that is popped, one for the
`read` and one for the `write`.
-/

namespace TokuBackup.Copier

open Kernel Lib Convergence

variable {D : DirectorySet} {fs₀ fs' : Fs} {table₀ : Path → Option SourceFile}
  {s s' : State} {seen : List Item} {d : Path × Path} {rel : List Path}
  {pending : List (List Path)} {name source dest : Path} {file : SourceFile} {content : Content}
  {c : Copying} {w n : Nat} {entries : List Path}

/-! ## Taking a source file and giving it back -/

/-- A source file without a destination, or none, is taken and gets a destination. -/
theorem copyUsingSourceInfo_eq (hopen : s.fs.openCreate dest = .ok fs')
    (hfree : ∀ file, s.table source = some file →
      file.unlinked = false ∧ file.destination = none) :
    ∃ file, copyUsingSourceInfo s source dest = { s with
        fs := fs', table := Function.update s.table source (some file),
        pc := .reading ⟨source, 0, 0⟩ } ∧
      file.unlinked = false ∧ file.destination = some ⟨components dest, 0⟩ ∧
      ((s.table source = none ∧ file.references = 1) ∨
        ∃ file₀, s.table source = some file₀ ∧ file.references = file₀.references + 1) := by
  cases htable : s.table source with
  | none =>
    refine ⟨⟨1, false, some ⟨components dest, 0⟩⟩, ?_, rfl, rfl, Or.inl ⟨rfl, rfl⟩⟩
    simp [copyUsingSourceInfo, State.getOrCreate, State.setFile, State.destination,
      State.tryToCreateDestinationFile, htable, hopen]
  | some file =>
    obtain ⟨hlinked, hnone⟩ := hfree file htable
    refine ⟨⟨file.references + 1, false, some ⟨components dest, 0⟩⟩, ?_, rfl, rfl,
      Or.inr ⟨file, rfl, rfl⟩⟩
    simp [copyUsingSourceInfo, State.getOrCreate, State.setFile, State.destination,
      State.tryToCreateDestinationFile, htable, hopen, hlinked, hnone]

/-- The copier's reference is given back; without another one the source file goes. -/
theorem finish_eq (h : s.table name = some file) :
    ∃ out, finish s name = { s with table := Function.update s.table name out, pc := .loop } ∧
      ∀ file', out = some file' → 1 < file.references ∧
        file' = { file with references := file.references - 1 } := by
  by_cases hrefs : file.references > 1
  · have hne : ¬ (file.references - 1 = 0) := by omega
    refine ⟨some { file with references := file.references - 1 }, ?_, ?_⟩
    · simp [finish, State.tryToRemoveDestination, State.tryToRemove, State.setFile, h, hrefs, hne]
    · intro file' hfile'
      cases hfile'
      exact ⟨hrefs, rfl⟩
  · have hzero : file.references - 1 = 0 := by omega
    refine ⟨none, ?_, nofun⟩
    simp [finish, State.tryToRemoveDestination, State.tryToRemove, State.setFile, h, hrefs, hzero]

/-! ## Entries -/

/-- `readdir` lists the children, in some order. -/
theorem dirEntries_eq : dirEntries (slashed rel) entries =
    ((entries.filter fun name => !DoBackup.isDot name).map fun n => rel ++ [n]).map todoName := by
  rw [dirEntries, List.map_map]
  apply List.map_congr_left
  intro n _
  exact todoName_concat.symm

/-- `readdir` may list the names without `.` and `..`. -/
theorem isListing_names (fs : Fs) (l : List Path) : IsListing fs l (fs.names l) := by
  have hnodots : (fs.names l).filter (fun name => !DoBackup.isDot name) = fs.names l := by
    rw [List.filter_eq_self]
    intro n hn
    obtain ⟨-, hdot, hdots⟩ := Fs.isEntry (Fs.mem_names.mp hn)
    simp [DoBackup.isDot, hdot, hdots]
  rw [IsListing, hnodots]

theorem copyStrippedFile_todoName (h : ∀ n ∈ rel, IsEntry n) :
    copyStrippedFile D s source dest (todoName rel) entries =
      copyFullPath D s (entryPath source rel) (entryPath dest rel) (slashed rel) entries := by
  by_cases hrel : rel = []
  · subst hrel
    rfl
  · rw [copyStrippedFile, if_neg fun hdot => hrel ((todoName_eq_dot h).mp hdot), entryPath,
      entryPath, if_neg hrel, if_neg hrel, todoName, if_neg hrel]

theorem stat_eq {v : Node} (h : s.fs.node (components source) = some v) :
    s.fs.stat source = .ok v := by
  rw [Fs.stat, h]

section

variable {path : Path}

theorem copyFullPath_excluded (hex : D.excludeCopy source = true) :
    copyFullPath D s source dest path entries = some { s with pc := .loop } := if_pos hex

theorem copyFullPath_regular (hex : D.excludeCopy source = false)
    (hnode : s.fs.node (components source) = some (.regular content)) :
    copyFullPath D s source dest path entries = some (copyUsingSourceInfo s source dest) := by
  rw [copyFullPath, hex, stat_eq hnode]
  rfl

theorem copyFullPath_directory (hex : D.excludeCopy source = false)
    (hnode : s.fs.node (components source) = some .directory)
    (hmkdir : s.fs.mkdir dest = .ok fs' ∨ s.fs.mkdir dest = .error .eexist ∧ fs' = s.fs) :
    copyFullPath D s source dest path entries =
      if IsListing s.fs (components source) entries then
        some { s with fs := fs', todo := s.todo ++ dirEntries path entries, pc := .loop }
      else none := by
  rw [copyFullPath, hex, stat_eq hnode]
  rcases hmkdir with h | ⟨h, rfl⟩
  · rw [h]
    rfl
  · rw [h]
    rfl

end

/-- What is kept between two copies does not mind one more entry. -/
theorem Rested.mono (h : Rested D fs₀ table₀ seen name file) (x : Item) :
    Rested D fs₀ table₀ (seen ++ [x]) name file := by
  obtain ⟨hlinked, hrefs, hdest⟩ := h
  refine ⟨hlinked, hrefs, fun hne => ?_⟩
  obtain ⟨y, hy, hcopied⟩ := hdest hne
  exact ⟨y, List.mem_append_left _ hy, hcopied⟩

/-- The source file of an entry that has not been handled has no destination. -/
theorem Rested.no_destination (honce : OpenFilesCopiedOnce D fs₀ table₀)
    (hd : D.dirs[s.index]? = some d) (hnew : (s.index, rel) ∉ seen) (hcopied : Copied D fs₀ d.1 rel)
    (h : Rested D fs₀ table₀ seen (entryPath d.1 rel) file) : file.destination = none := by
  by_contra hne
  obtain ⟨-, ⟨file₀, htable, -⟩, hdest⟩ := h
  obtain ⟨⟨j, rel'⟩, hy, d', hd', hcopied', hname⟩ := hdest hne
  dsimp only at hd' hcopied' hname
  by_cases hj : s.index = j
  · -- in one tree, entries with one path are one entry
    subst hj
    rw [hd, Option.some.injEq] at hd'
    subst hd'
    have hcomp := congrArg components hname
    rw [components_entryPath _ hcopied'.1.isEntry,
      components_entryPath _ hcopied.1.isEntry] at hcomp
    rw [List.append_cancel_left hcomp] at hy
    exact hnew hy
  · have hnone := honce s.index j d d' rel rel' hd hd' hj hcopied hcopied' hname.symm
    rw [htable] at hnone
    cases hnone

/-! ## The first entry of the todo list -/

section

variable (hd : D.dirs[s.index]? = some d)
  (hE : Exploring D fs₀ s seen (rel :: pending) (rootsFrom D (s.index + 1)))
  (hR : Resting D fs₀ table₀ s seen) (hcopied : Copied D fs₀ d.1 rel)

include hd hE hR hcopied

/-- The directory of the destination is there, and the destination is not. -/
theorem destination_free (hrel : rel ≠ []) :
    ∃ l m, components (entryPath d.2 rel) = l ++ [m] ∧ l ++ [m] = components d.2 ++ rel ∧
      s.fs.node l = some .directory ∧ IsEntry m ∧ s.fs.node (l ++ [m]) = none := by
  have hentry := hcopied.1.isEntry
  have hnone : s.fs.node (components d.2 ++ rel) = none := by
    rw [hR.mirrored.inside s.index d rel hd, image_new hE.new hrel]
  have hpath := components_entryPath d.2 hentry
  obtain hnil | ⟨above, m, rfl⟩ := List.eq_nil_or_concat' rel
  · exact absurd hnil hrel
  · rw [← List.append_assoc] at hnone hpath
    refine ⟨components d.2 ++ above, m, hpath, List.append_assoc _ _ _, ?_, ?_, hnone⟩
    · exact hR.mirrored.parent hd hE.parent_seen hcopied.1
    · exact hentry m (List.mem_append_right _ List.mem_cons_self)

/-- The destination of a directory is there or can be made. -/
theorem mkdir_directory :
    ∃ fs', (s.fs.mkdir (entryPath d.2 rel) = .ok fs' ∨
        s.fs.mkdir (entryPath d.2 rel) = .error .eexist ∧ fs' = s.fs) ∧
      ∀ k, fs'.node k = if k = components d.2 ++ rel then some .directory else s.fs.node k := by
  by_cases hrel : rel = []
  · -- the destination directory itself
    have hthere : s.fs.node (components d.2 ++ rel) = some .directory := by
      rw [hR.mirrored.inside s.index d rel hd, image, if_neg fun h => hE.new h.1, if_pos hrel]
    refine ⟨s.fs, Or.inr ⟨Fs.mkdir_exists ?_, rfl⟩, fun k => ?_⟩
    · rw [components_entryPath d.2 hcopied.1.isEntry, hthere]
      exact Option.some_ne_none _
    · split
      · rename_i hk
        rw [hk, hthere]
      · rfl
  · obtain ⟨l, m, hpath, heq, hdir, hentry, hnone⟩ := destination_free hd hE hR hcopied hrel
    obtain ⟨fs', hmkdir, hfs⟩ := Fs.mkdir_new hpath hdir hentry hnone
    rw [heq] at hfs
    exact ⟨fs', Or.inl hmkdir, hfs⟩

end

/-- The first entry of the todo list is taken off. -/
def taken (s : State) (rel : List Path) : State :=
  { s with todo := s.todo.tail, handled := s.handled ++ [(s.index, todoName rel)] }

/-- What handling the entry `rel` leads to. -/
structure Popped (D : DirectorySet) (fs₀ : Fs) (table₀ : Path → Option SourceFile) (s : State)
    (rel : List Path) (s' : State) : Prop where
  inv : Inv D fs₀ table₀ s'
  index : s'.index = s.index
  handled : s'.handled = s.handled ++ [(s.index, todoName rel)]
  pc : s'.pc = .loop ∨ ∃ source, s'.pc = .reading ⟨source, 0, 0⟩

section

variable (hQ : Quiet D fs₀ table₀) (hdiffer : DestinationsDiffer D)
  (honce : OpenFilesCopiedOnce D fs₀ table₀) (hd : D.dirs[s.index]? = some d)
  (hE : Exploring D fs₀ s seen (rel :: pending) (rootsFrom D (s.index + 1)))
  (hR : Resting D fs₀ table₀ s seen)

include hQ hdiffer hd hE hR

/-- The entry is excluded. -/
theorem popped_excluded (hex : D.excludeCopy (entryPath d.1 rel) = true)
    (hs' : s' = { taken s rel with pc := .loop }) :
    Popped D fs₀ table₀ s rel s' := by
  subst hs'
  refine ⟨?_, rfl, rfl, Or.inl rfl⟩
  refine ⟨seen ++ [(s.index, rel)], pending, (List.getElem?_eq_some_iff.mp hd).1, ?_, ?_⟩
  · have hleaf : children D fs₀ (s.index, rel) = [] := by
      rw [children, hd]
      exact if_pos hex
    apply hE.pop_leaf hleaf
    all_goals rfl
  · constructor
    · exact hR.mirrored.skip hQ hdiffer hd hE.new (Or.inl hex)
    · exact fun name file hname h => (hR.table name file hname h).mono _

include honce in
/-- The entry is a regular file. -/
theorem popped_regular (hcopied : Copied D fs₀ d.1 rel)
    (hregular : fs₀.node (components d.1 ++ rel) = some (.regular content))
    (hs' : s' = copyUsingSourceInfo (taken s rel) (entryPath d.1 rel) (entryPath d.2 rel)) :
    Popped D fs₀ table₀ s rel s' := by
  have hmem := List.mem_of_getElem? hd
  have hname : IsCopiedName D fs₀ (entryPath d.1 rel) := ⟨d, hmem, rel, hcopied, rfl⟩
  -- the root is a directory
  have hrel : rel ≠ [] := by
    rintro rfl
    rw [List.append_nil, hQ.source_directory d hmem] at hregular
    cases hregular
  obtain ⟨l, m, hpath, heq, hdir, hentry, hnone⟩ := destination_free hd hE hR hcopied hrel
  obtain ⟨fs', hopen, hnode⟩ := Fs.openCreate_new hpath hdir hentry hnone
  rw [heq] at hnode hpath
  have hfree : ∀ file, s.table (entryPath d.1 rel) = some file →
      file.unlinked = false ∧ file.destination = none := by
    intro file hfile
    have hrest := hR.table _ file hname hfile
    exact ⟨hrest.1, hrest.no_destination honce hd hE.new hcopied⟩
  obtain ⟨file, hstate, hlinked, hdest, hrefs⟩ :=
    copyUsingSourceInfo_eq (s := taken s rel) hopen hfree
  rw [hstate] at hs'
  subst hs'
  refine ⟨?_, rfl, rfl, Or.inr ⟨_, rfl⟩⟩
  refine ⟨seen ++ [(s.index, rel)], pending, ?_, d, rel, content, 0, ?_⟩
  · have hleaf : children D fs₀ (s.index, rel) = [] := by
      apply List.eq_nil_iff_forall_not_mem.mpr
      intro y hy
      obtain ⟨d', m, hd', -, -, hm⟩ := mem_children.mp hy
      rw [hd, Option.some.injEq] at hd'
      subst hd'
      dsimp only at hm
      rw [← List.append_assoc] at hm
      rw [Fs.parent_directory hm] at hregular
      cases hregular
    apply hE.pop_leaf hleaf
    all_goals rfl
  · constructor
    case dir => exact hd
    case mem_seen => exact List.mem_append_right _ List.mem_cons_self
    case copied => exact hcopied
    case source => rfl
    case regular => exact hregular
    case mirrored =>
      apply hR.mirrored.add hQ hdiffer hd hcopied.2 hregular fun y v hy => copyOf_ne hy
      intro k
      rw [copyOf_self, cutNode, content.truncate_zero]
      exact hnode k
    case table =>
      intro name file' hother hname' hfile
      have hold : s.table name = some file' := by
        rw [← hfile]
        exact (Function.update_of_ne hother _ _).symm
      exact (hR.table name file' hname' hold).mono _
    case file =>
      refine ⟨file, Function.update_self _ _ _, hlinked, ?_, ?_⟩
      · rw [hdest, hpath]
      · rcases hrefs with ⟨-, hone⟩ | ⟨file₁, hfile₁, hmore⟩
        · exact Or.inl hone
        · obtain ⟨-, ⟨file₀, hfile₀, heq₀⟩, -⟩ := hR.table _ file₁ hname hfile₁
          exact Or.inr ⟨file₀, hfile₀, by rw [hmore, heq₀]⟩
    case written => rfl
    case offset => rfl
    case bound => exact Nat.zero_le _

/-- The entry is a directory. -/
theorem popped_directory (hcopied : Copied D fs₀ d.1 rel)
    (hnode : fs₀.node (components d.1 ++ rel) = some .directory)
    (hlisting : IsListing s.fs (components (entryPath d.1 rel)) entries)
    (hfs : ∀ k, fs'.node k =
      if k = components d.2 ++ rel then some .directory else s.fs.node k)
    (hs' : s' = { taken s rel with
      fs := fs', todo := (taken s rel).todo ++ dirEntries (slashed rel) entries, pc := .loop }) :
    Popped D fs₀ table₀ s rel s' := by
  subst hs'
  have hmem := List.mem_of_getElem? hd
  rw [components_entryPath _ hcopied.1.isEntry] at hlisting
  refine ⟨?_, rfl, rfl, Or.inl rfl⟩
  refine ⟨seen ++ [(s.index, rel)],
    pending ++ (entries.filter fun name => !DoBackup.isDot name).map fun n => rel ++ [n],
    (List.getElem?_eq_some_iff.mp hd).1, ?_, ?_⟩
  · have hfound : (((entries.filter fun name => !DoBackup.isDot name).map fun n => rel ++ [n]).map
        fun rel => ((s.index, rel) : Item)).Perm (children D fs₀ (s.index, rel)) := by
      have hchildren : children D fs₀ (s.index, rel) =
          (fs₀.names (components d.1 ++ rel)).map fun n => (s.index, rel ++ [n]) := by
        rw [children, hd]
        dsimp only
        rw [hcopied.2]
        rfl
      rw [hchildren, List.map_map]
      exact (hlisting.trans (hR.mirrored.source_names hQ hmem rel)).map _
    apply hE.pop _ _ _ hfound
    · rfl
    · rfl
    · rw [dirEntries_eq]
      rfl
  · constructor
    · apply hR.mirrored.add hQ hdiffer hd hcopied.2 hnode fun _ _ _ => rfl
      exact hfs
    · exact fun name file hname h => (hR.table name file hname h).mono _

include honce

/-- Handling an entry gives a state of the kind above; it is possible whatever the entry is. -/
theorem popped :
    (∀ entries s', copyStrippedFile D (taken s rel) d.1 d.2 (todoName rel) entries = some s' →
      Popped D fs₀ table₀ s rel s') ∧
    ∃ entries s', copyStrippedFile D (taken s rel) d.1 d.2 (todoName rel) entries = some s' := by
  have hmem := List.mem_of_getElem? hd
  have hhandled := hE.handled_of hQ hd
  have hentry := hhandled.isEntry
  have hsource := components_entryPath d.1 hentry
  have hsame := hR.mirrored.source_node hQ hmem rel
  have hnode' : (taken s rel).fs.node (components (entryPath d.1 rel)) =
      fs₀.node (components d.1 ++ rel) := by
    rw [hsource]
    exact hsame
  simp only [copyStrippedFile_todoName hentry]
  cases hex : D.excludeCopy (entryPath d.1 rel) with
  | true =>
    simp only [copyFullPath_excluded hex]
    refine ⟨fun entries s' hs' => ?_, [], _, rfl⟩
    exact popped_excluded hQ hdiffer hd hE hR hex (Option.some.inj hs').symm
  | false =>
    have hcopied : Copied D fs₀ d.1 rel := ⟨hhandled, hex⟩
    cases hnode : fs₀.node (components d.1 ++ rel) with
    | none => exact absurd hnode hhandled.1
    | some v =>
      rw [hnode] at hnode'
      cases v with
      | regular content =>
        simp only [copyFullPath_regular hex hnode']
        refine ⟨fun entries s' hs' => ?_, [], _, rfl⟩
        exact popped_regular hQ hdiffer honce hd hE hR hcopied hnode (Option.some.inj hs').symm
      | directory =>
        obtain ⟨fs', hmkdir, hfs⟩ := mkdir_directory hd hE hR hcopied
        have hmkdir : (taken s rel).fs.mkdir (entryPath d.2 rel) = .ok fs' ∨
            (taken s rel).fs.mkdir (entryPath d.2 rel) = .error .eexist ∧
              fs' = (taken s rel).fs := hmkdir
        constructor
        · intro entries s' hs'
          rw [copyFullPath_directory hex hnode' hmkdir] at hs'
          split at hs'
          · rename_i hlisting
            exact popped_directory hQ hdiffer hd hE hR hcopied hnode hlisting hfs
              (Option.some.inj hs').symm
          · cases hs'
        · refine ⟨s.fs.names (components (entryPath d.1 rel)), { taken s rel with
            fs := fs', pc := .loop, todo := (taken s rel).todo ++
              dirEntries (slashed rel) (s.fs.names (components (entryPath d.1 rel))) }, ?_⟩
          rw [copyFullPath_directory hex hnode' hmkdir]
          exact if_pos (isListing_names _ _)

end

/-! ## The bytes -/

section

variable (hQ : Quiet D fs₀ table₀) (hdiffer : DestinationsDiffer D)

include hQ

/-- The descriptor of the source reads the source as it was. -/
theorem Busy.source_node {pending : Nat}
    (hB : Busy D fs₀ table₀ s seen d rel content c w pending) :
    s.fs.node (components c.source) = some (.regular content) := by
  rw [hB.source, components_entryPath d.1 hB.copied.1.isEntry,
    hB.mirrored.source_node hQ (List.mem_of_getElem? hB.dir), hB.regular]

include hdiffer

/-- The copy is complete, and the source file is given back. -/
theorem Busy.finish (hB : Busy D fs₀ table₀ s seen d rel content c w 0)
    (hend : content.len = c.offset) :
    ∃ table, Copier.finish s c.source = { s with table := table, pc := .loop } ∧
      Resting D fs₀ table₀ { s with table := table, pc := .loop } seen := by
  obtain ⟨file, hfile, hlinked, hdest, hrefs⟩ := hB.file
  obtain ⟨out, hout, hkept⟩ := finish_eq hfile
  refine ⟨_, hout, ?_, ?_⟩
  · have hlen : content.len = w := hend.trans hB.offset
    apply Mirrored.complete hQ hdiffer (hlen.symm ▸ hB.mirrored) hB.dir hB.mem_seen hB.copied.2
    exact hB.regular
  · intro name file' hcopied hfile'
    by_cases hname : name = c.source
    · subst hname
      have hsome : out = some file' := by
        rw [← hfile']
        exact (Function.update_self c.source out s.table).symm
      obtain ⟨hmany, rfl⟩ := hkept file' hsome
      -- an open file keeps the destination; it has now been handled
      rcases hrefs with hone | ⟨file₀, hfile₀, hmore⟩
      · omega
      · refine ⟨hlinked, ⟨file₀, hfile₀, ?_⟩, fun _ => ?_⟩
        · dsimp only
          omega
        · exact ⟨(s.index, rel), hB.mem_seen, d, hB.dir, hB.copied, hB.source.symm⟩
    · have hold : s.table name = some file' := by
        rw [← hfile']
        exact (Function.update_of_ne hname _ _).symm
      exact hB.table name file' hname hcopied hold

theorem inv_read (hE : Exploring D fs₀ s seen pending (rootsFrom D (s.index + 1)))
    (hB : Busy D fs₀ table₀ s seen d rel content c w 0) (hstep : readChunk s c n = some s') :
    Inv D fs₀ table₀ s' := by
  rw [readChunk, hB.source_node hQ] at hstep
  dsimp only at hstep
  split at hstep
  · rename_i hn
    split at hstep
    · rename_i hzero
      obtain ⟨table, hfinish, hR⟩ := hB.finish hQ hdiffer (hn.2.2 hzero)
      rw [hfinish, Option.some.injEq] at hstep
      subst hstep
      refine ⟨seen, pending, (List.getElem?_eq_some_iff.mp hB.dir).1, ?_, hR⟩
      exact hE.of_eq rfl rfl rfl
    · rename_i hpos
      rw [Option.some.injEq] at hstep
      subst hstep
      have hoffset := hB.offset
      refine ⟨seen, pending, hE.of_eq rfl rfl rfl, ?_, d, rel, content, w, ?_, Nat.zero_le _, ?_⟩
      · rw [Content.read_length]
        omega
      · rw [Content.read_length, hoffset]
        rfl
      · exact {
          dir := hB.dir
          mem_seen := hB.mem_seen
          copied := hB.copied
          source := hB.source
          regular := hB.regular
          mirrored := hB.mirrored
          table := hB.table
          file := hB.file
          written := hB.written
          offset := by
            rw [Content.read_length]
            dsimp only
            omega
          bound := hn.2.1 }
  · cases hstep

/-- `m` more bytes of the chunk are in the destination. -/
theorem Busy.write {buf : List UInt8} {n m : Nat} (hn : n ≤ w)
    (hbuf : buf = content.read (w - n) buf.length) (hpos : 0 < m) (hm : n + m ≤ buf.length)
    (hB : Busy D fs₀ table₀ s seen d rel content c w (buf.length - n))
    (hfile : s.table c.source = some file) (pc : Pc) :
    Busy D fs₀ table₀ ({ s with
        fs := s.fs.write (components d.2 ++ rel) w ((buf.drop n).take m), pc := pc }.setFile
          c.source (some { file with destination := some ⟨components d.2 ++ rel, w + m⟩ }))
      seen d rel content { c with totalWritten := c.totalWritten + m } (w + m)
      (buf.length - (n + m)) := by
  have hoffset : c.offset = w + m + (buf.length - (n + m)) := by
    have := hB.offset
    omega
  have hwritten : c.totalWritten + m = w + m := by rw [hB.written]
  obtain ⟨file', hfile', hlinked, -, hrefs⟩ := hB.file
  rw [hfile, Option.some.injEq] at hfile'
  subst hfile'
  have hpiece : (buf.drop n).take m = content.read w m := by
    rw [hbuf, Content.read_drop_take hm]
    congr 1
    omega
  have hdest : s.fs.node (components d.2 ++ rel) = some (.regular (content.truncate w)) := by
    rw [hB.mirrored.inside s.index d rel hB.dir, image_copied hB.mem_seen hB.copied.2, hB.regular,
      Option.map_some, copyOf_self]
    rfl
  constructor
  case dir => exact hB.dir
  case mem_seen => exact hB.mem_seen
  case copied => exact hB.copied
  case source => exact hB.source
  case regular => exact hB.regular
  case mirrored =>
    apply hB.mirrored.progress hQ hdiffer hB.dir hB.mem_seen hB.copied.2 hB.regular
    intro k
    rw [← content.truncate_write_read hpos, ← hpiece]
    exact Fs.node_write hdest
  case table =>
    intro name file' hname hcopied hfile'
    have hold : s.table name = some file' := by
      rw [← hfile']
      exact (Function.update_of_ne hname _ _).symm
    exact hB.table name file' hname hcopied hold
  case file => exact ⟨_, Function.update_self _ _ _, hlinked, rfl, hrefs⟩
  case written => exact hwritten
  case offset => exact hoffset
  case bound => exact hB.bound

theorem inv_write {buf : List UInt8} {n m : Nat}
    (hE : Exploring D fs₀ s seen pending (rootsFrom D (s.index + 1))) (hn : n ≤ w)
    (hbuf : buf = content.read (w - n) buf.length)
    (hB : Busy D fs₀ table₀ s seen d rel content c w (buf.length - n))
    (hstep : writeChunk s c buf n m = some s') : Inv D fs₀ table₀ s' := by
  obtain ⟨file, hfile, -, hdest, -⟩ := hB.file
  rw [writeChunk, hfile] at hstep
  dsimp only at hstep
  rw [hdest] at hstep
  dsimp only at hstep
  split at hstep
  · rename_i hm
    rw [Option.some.injEq] at hstep
    subst hstep
    have hwrite := hB.write hQ hdiffer hn hbuf hm.1 hm.2 hfile
    by_cases hmore : n + m < buf.length
    · rw [if_pos hmore]
      refine ⟨seen, pending, hE.of_eq rfl rfl rfl, hmore, d, rel, content, w + m, ?_, ?_, hwrite _⟩
      · have hsub : w + m - (n + m) = w - n := by omega
        rw [hsub]
        exact hbuf
      · omega
    · rw [if_neg hmore]
      have hall : buf.length - (n + m) = 0 := by omega
      refine ⟨seen, pending, hE.of_eq rfl rfl rfl, d, rel, content, w + m, ?_⟩
      exact hall ▸ hwrite _
  · cases hstep

end

end TokuBackup.Copier
