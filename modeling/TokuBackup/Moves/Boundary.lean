import TokuBackup.Moves.Race

/-!
# Which moves across the boundary are mirrored

A file that moves out leaves no copy behind when the copier has not created one, nor looked for
the file to create it. A file that moves in is copied when the copier comes across it under its
new name, with the content that it has when the copier opens it.
-/

namespace TokuBackup.Moves.Race

open Kernel Lib

/-! ## A file that moves out -/

/-- What the copier has open would not be copied to `dest`. -/
def Elsewhere (D : DirectorySet) (dest : List Path) (s : State) : Prop :=
  ∀ x ∈ s.base.pc.opens, ∀ d ∈ D.dirs[s.base.index]?, components d.2 ++ x.1 ≠ dest

/-- The step keeps the file that has moved out of the backup: when it moves there is no file at
`dest`, and the copier has not seen one that it is about to copy there; and it sees none
afterwards. -/
def MovesOutOk (D : DirectorySet) (dest : List Path) (s : State) : Action → Prop
  | .look => s.base.mover ≠ .idle → ∀ x ∈ s.base.pc.opens, ∀ d ∈ D.dirs[s.base.index]?,
      s.base.fs.node (components d.1 ++ x.1) ≠ none → components d.2 ++ x.1 ≠ dest
  | .base .rename =>
    (∀ inode, s.base.backup dest ≠ some (.file inode)) ∧
      (s.looked = some true → Elsewhere D dest s)
  | _ => True

section

variable {D : DirectorySet} {old new : Path} {s s' : State} {a : Action} {dest : List Path}

/-- Once the file has moved there is none at `dest`, and none is about to be created there. -/
def LeftOut (D : DirectorySet) (dest : List Path) (s : State) : Prop :=
  s.base.mover ≠ .idle → (∀ inode, s.base.backup dest ≠ some (.file inode)) ∧
    (s.looked = some true → Elsewhere D dest s)

/-- Only the rename makes the mover leave its place. -/
theorem moved_before {b b' : Moves.State} {a : Moves.Action} (h : Moves.Advance D old new b a b')
    (hcross : Crosses D old new) (ha : a ≠ .rename) (hmoved : b'.mover ≠ .idle) :
    b.mover ≠ .idle := by
  cases h with
  | create _ _ _ _ hprov =>
    rw [← hprov.only.mover]
    exact hmoved
  | rename => exact absurd rfl ha
  | ignore _ hmover => simp [hmover]
  | refuseOld _ _ hcapt => exact absurd hcross hcapt.not_crosses
  | refuseNew _ _ hcapt => exact absurd hcross hcapt.not_crosses
  | moveOld _ _ hcapt => exact absurd hcross hcapt.not_crosses
  | moveNew _ _ hcapt => exact absurd hcross hcapt.not_crosses
  | push hmover => simp [hmover]
  | _ => exact hmoved

theorem Elsewhere.same (h : Elsewhere D dest s) (hopens : s'.base.pc.opens = s.base.pc.opens)
    (hindex : s'.base.index = s.base.index) : Elsewhere D dest s' := by
  intro x hx d hd
  rw [hopens] at hx
  rw [hindex] at hd
  exact h x hx d hd

theorem LeftOut.advance (h : LeftOut D dest s) (hsane : Sane D s)
    (hadv : Advance D old new s a s') (hcross : Crosses D old new)
    (hok : MovesOutOk D dest s a) : LeftOut D dest s' := by
  cases hadv with
  | @look rel id content d hpc hd hlooked =>
    refine fun hmoved => ⟨(h hmoved).1, fun htrue x hx d' hd' => hok hmoved x hx d' hd' ?_⟩
    have hx : s.base.pc.opens = some x := hx
    have hd' : D.dirs[s.base.index]? = some d' := hd'
    rw [hpc] at hx
    cases hx
    rw [hd] at hd'
    cases hd'
    exact of_decide_eq_true (Option.some.inj htrue)
  | write =>
    refine fun hmoved => ⟨(h hmoved).1, fun htrue => ((h hmoved).2 htrue).same ?_ rfl⟩
    change (if s.reading then _ else _ : Pc).opens = _
    split
    · exact opens_reread
    · rfl
  | createGone =>
    exact fun hmoved => ⟨(h hmoved).1, fun htrue => by cases htrue⟩
  | create hpc hd hlooked hfile hprov =>
    intro hmoved
    have hmoved : s.base.mover ≠ .idle := by
      rw [← hprov.only.mover]
      exact hmoved
    obtain ⟨hnone, helsewhere⟩ := h hmoved
    refine ⟨fun inode => ?_, fun htrue => by cases htrue⟩
    have hne := helsewhere hlooked _ (by rw [hpc]; rfl) _ hd
    exact (hprov.backup_ne (Ne.symm hne)).symm ▸ hnone inode
  | openSource hb =>
    intro hmoved
    have hmoved := moved_before hb hcross (by simp) hmoved
    refine ⟨hb.no_file hcross (by simp) (h hmoved).1, fun htrue => ?_⟩
    obtain ⟨hpc, hindex⟩ := opens_kept hb hcross (by simp) (hsane.inside (by rw [htrue]; simp))
    exact ((h hmoved).2 htrue).same (congrArg Pc.opens hpc) hindex
  | @base a b hb hcreate hopen =>
    intro hmoved
    have hkept : s.looked = some true → Elsewhere D dest s →
        Elsewhere D dest { s with base := b } := by
      intro htrue helsewhere
      obtain ⟨hpc, hindex⟩ := opens_kept hb hcross hcreate (hsane.inside (by rw [htrue]; simp))
      exact helsewhere.same (congrArg Pc.opens hpc) hindex
    by_cases ha : a = .rename
    · subst ha
      exact ⟨hb.no_file hcross hcreate hok.1, fun htrue => hkept htrue (hok.2 htrue)⟩
    · have hmoved := moved_before hb hcross ha hmoved
      exact ⟨hb.no_file hcross hcreate (h hmoved).1,
        fun htrue => hkept htrue ((h hmoved).2 htrue)⟩

end

/-! ## A file that moves in -/

/-- The step lets the copier come across the file that has moved in, and what is created for it
is its copy; and the application does not change the file once the copier has opened it. -/
def MovesInOk (D : DirectorySet) (new : Path) (j : Nat) (front : List Path) (n : Path)
    (k : List Path) (s : State) : Action → Prop
  | .look => True
  | .write _ => s.read = false
  | .base a =>
    (a = .create → s.looked = some true → CreatesIn D new k s.base) ∧
      ComesAcross D j front n k s.base a

section

variable {D : DirectorySet} {old new : Path} {s s' : State} {a : Action} {c : Content}
  {k : List Path} {j : Nat} {d : Path × Path} {front : List Path} {n : Path}

/-- The file that moves in. As long as the copier has not opened it, it may still change, and
nothing has been written to its copy. -/
structure Arrives (D : DirectorySet) (old new : Path) (c : Content) (k : List Path) (j : Nat)
    (d : Path × Path) (front : List Path) (n : Path) (s : State) : Prop where
  base : Moves.Arrives D old new c k j d front n s.base
  unread : s.read = false → Ahead j front n s.base ∧ ∀ c', Stored c' (fun l => l = k) s.base
  opened : ∀ rel id content d', s.base.pc = .opened rel id content →
    D.dirs[s.base.index]? = some d' → components d'.1 ++ rel = components new →
    components d'.2 ++ rel = k → s.read = true
  found : s.looked = some false → s.base.index = j → s.base.pc.reads ≠ some (front ++ [n])

/-- The copier has another source open, or what it has open is the file. -/
theorem ahead_created {b b' : Moves.State} (hA : Ahead j front n b) {rel : List Path} {id : Nat}
    {content : Content} (hpc : b.pc = .opened rel id content) (hindex : b'.index = b.index)
    (htodo : b'.todo = b.todo) (hpc' : b'.pc.working = true) :
    Ahead j front n b' ∨ b.index = j ∧ rel = front ++ [n] := by
  cases hA with
  | later hlt =>
    refine Or.inl (.later (by rw [hindex]; exact hlt) fun r hr => ?_)
    rw [hr] at hpc'
    cases hpc'
  | starting _ hnext =>
    rw [hpc] at hnext
    cases hnext
  | queued hj _ hl hmem =>
    exact Or.inl (.queued (hindex.trans hj) hpc' hl (by rw [htodo]; exact hmem))
  | scanned _ hscan =>
    rw [hpc] at hscan
    cases hscan
  | reading hj hreads =>
    rw [hpc] at hreads
    exact Or.inr ⟨hj, Option.some.inj hreads⟩

/-- The copier stands in the file that it has opened before. -/
theorem opened_before {b b' : Moves.State} {a : Moves.Action} (h : Moves.Advance D old new b a b')
    (hcross : Crosses D old new) (hcreate : a ≠ .create) (hopen : a ≠ .openSource)
    {rel : List Path} {id : Nat} {content : Content} (hpc : b'.pc = .opened rel id content) :
    b.pc = .opened rel id content ∧ b'.index = b.index := by
  cases ha : a.byCopier with
  | false =>
    have haside := h.aside hcross ha
    exact ⟨haside.pc.symm.trans hpc, haside.index⟩
  | true => cases h <;> simp_all [Action.byCopier]

theorem Place.pair_eq (hP : Place D new k j d front n) {i : Nat} (hi : i = j) {d' : Path × Path}
    (hd : D.dirs[i]? = some d') : d' = d := by
  rw [hi, hP.pair] at hd
  exact (Option.some.inj hd).symm

/-- `lstat` finds the file. -/
theorem Arrives.look (hA : Arrives D old new c k j d front n s) (hP : Place D new k j d front n)
    {rel : List Path} {id : Nat} {content : Content} {d' : Path × Path}
    (hpc : s.base.pc = .opened rel id content) (hd : D.dirs[s.base.index]? = some d')  :
    Arrives D old new c k j d front n
      { s with looked := some (decide (s.base.fs.node (components d'.1 ++ rel) ≠ none)) } where
  base := hA.base
  unread := hA.unread
  opened := hA.opened
  found hfalse hindex hreads := by
    have hrel : rel = front ++ [n] := by
      change s.base.pc.reads = _ at hreads
      rw [hpc] at hreads
      exact Option.some.inj hreads
    have hpair := Place.pair_eq hP hindex hd
    subst hrel hpair
    have hmoved := hA.base.tracked.reading (front ++ [n]) d' (by rw [hpc]; rfl) hd hP.target.symm
    have hnode := hA.base.tracked.after hmoved
    rw [hP.source] at hnode
    exact of_decide_eq_false (Option.some.inj hfalse) (by rw [hnode]; simp)

/-- The application changes the file. -/
theorem Arrives.write (hA : Arrives D old new c k j d front n s) (hsane : Sane D s)
    (hunread : s.read = false) {fs : Fs} {content : Content}
    (hfs : s.base.fs.rewrite (s.path old new) content = some fs) :
    Arrives D old new content k j d front n { s with base := { s.base with
      fs := fs
      pc := if s.reading then reread content s.base.pc else s.base.pc } } := by
  have hpc : (if s.reading then reread content s.base.pc else s.base.pc) = s.base.pc := by
    refine if_neg fun hreading => ?_
    rw [hsane.reading hreading] at hunread
    cases hunread
  rw [hpc]
  obtain ⟨hahead, hstored⟩ := hA.unread hunread
  obtain ⟨-, hnode⟩ := Fs.rewrite_some hfs
  have hkept : ∀ c', Stored c' (fun l => l = k) { s.base with fs := fs } := fun c' =>
    (hstored c').aside rfl rfl rfl rfl fun _ _ _ => Iff.rfl
  have hahead : Ahead j front n { s.base with fs := fs } := hahead.aside rfl rfl fun _ hl => hl
  refine ⟨⟨⟨fun hidle => ?_, fun hmoved => ?_, hA.base.tracked.reading,
    fun l id content' d' hopened hd hk hname => ?_⟩, hA.base.linked, hkept content,
    Or.inl hahead, fun l hl => ?_⟩, fun _ => ⟨hahead, hkept⟩, hA.opened, hA.found⟩
  · rw [hnode, State.path, if_pos hidle, if_pos rfl]
  · rw [hnode, State.path, if_neg hmoved, if_pos rfl]
  · rw [hA.opened l id content' d' hopened hd hname hk] at hunread
    cases hunread
  · exact (Fs.rewrite_directory hfs _).mpr (hA.base.directories l hl)

/-- `lstat` has found nothing. -/
theorem Arrives.createGone (hA : Arrives D old new c k j d front n s) {rel : List Path} {id : Nat}
    {content : Content} (hpc : s.base.pc = .opened rel id content)
    (hlooked : s.looked = some false) :
    Arrives D old new c k j d front n
      { s with base := { s.base with pc := .copied id }, looked := none } := by
  have hahead : Ahead j front n s.base → Ahead j front n { s.base with pc := .copied id } := by
    intro hahead
    have hcreated : Ahead j front n { s.base with pc := .copied id } ∨
        s.base.index = j ∧ rel = front ++ [n] := ahead_created hahead hpc rfl rfl rfl
    refine hcreated.resolve_right fun ⟨hindex, hrel⟩ => ?_
    exact hA.found hlooked hindex (by rw [hpc, hrel]; rfl)
  have hpast : ∀ c', Stored c' (fun l => l = k) s.base →
      Stored c' (fun l => l = k) { s.base with pc := .copied id } :=
    fun c' hS => hS.past rfl rfl rfl (holds_same rfl) rfl
  refine ⟨⟨hA.base.tracked.past rfl Iff.rfl rfl, hA.base.linked, hpast c hA.base.stored, ?_,
    hA.base.directories⟩, fun hunread => ?_, fun rel id content d' hopened => ?_,
    fun hfalse => ?_⟩
  · refine hA.base.coming.imp hahead fun ⟨i, hi, hwritten⟩ => ⟨i, hi, Or.inl ?_⟩
    refine hwritten.resolve_right fun ⟨id', hid, _⟩ => ?_
    rw [hpc] at hid
    cases hid
  · obtain ⟨hbefore, hstored⟩ := hA.unread hunread
    exact ⟨hahead hbefore, fun c' => hpast c' (hstored c')⟩
  · cases hopened
  · cases hfalse

/-- The copy is created. -/
theorem Arrives.create (hA : Arrives D old new c k j d front n s) (hP : Place D new k j d front n)
    (hsane : Sane D s) (hcross : Crosses D old new) {rel : List Path} {id : Nat}
    {content : Content} {d' : Path × Path} {file : SourceFile} {s₁ : Moves.State}
    {dest : DestinationFile} (hpc : s.base.pc = .opened rel id content)
    (hd : D.dirs[s.base.index]? = some d') (hlooked : s.looked = some true)
    (hfile : s.base.heap id = some file)
    (hprov : Provides s.base file (components d'.2 ++ rel) s₁ dest)
    (hok : CreatesIn D new k s.base) :
    Arrives D old new c k j d front n { s with
      base := { s₁.setFile id (some { file with destination := some dest }) with
        pc := .copying id content 0 }
      looked := none } := by
  obtain ⟨fs, hfs⟩ := hsane.seen hlooked (rel, id) (by rw [hpc]; rfl) d' hd
  let b : Moves.State := { s.base with fs := fs }
  let b' : Moves.State := { ({ s₁ with fs := fs } : Moves.State).setFile id
      (some { file with destination := some dest }) with
    pc := .copying id content 0 }
  have hadv : Moves.Advance D old new b .create b' := create_advance hpc hd hfs hfile hprov
  have hstarts : ∀ l, l = k → s₁.backup l = some (.file dest.inode) →
      (content = c ∧ dest.offset = 0) ∧ components d'.1 ++ rel = components new ∧
        components d'.2 ++ rel = k := by
    intro l hl hi
    subst hl
    exact hA.base.begins hok hpc hd hfile hprov hi
  have hbegin : ∀ c', Stored c' (fun l => l = k) s.base →
      (∀ l, l = k → s₁.backup l = some (.file dest.inode) → content = c' ∧ dest.offset = 0) →
      Stored c' (fun l => l = k) { s₁.setFile id (some { file with destination := some dest }) with
        pc := .copying id content 0 } := by
    intro c' hS hstart
    obtain ⟨hS₁, hbound⟩ :=
      hS.provides (fun dst hdst => hS.bound id file.name dst ⟨file, hfile, rfl, hdst⟩) hprov
    exact hS₁.begin hbound hstart
  have hahead : Ahead j front n s.base →
      Ahead j front n { s₁.setFile id (some { file with destination := some dest }) with
        pc := .copying id content 0 } ∨ s.base.index = j ∧ rel = front ++ [n] :=
    fun hb => ahead_created hb hpc hprov.only.index hprov.only.todo rfl
  -- the copier is in the file itself
  have htarget : s.base.index = j → rel = front ++ [n] →
      components d'.1 ++ rel = components new ∧ components d'.2 ++ rel = k := by
    intro hindex hrel
    rw [Place.pair_eq hP hindex hd, hrel]
    exact ⟨hP.source.symm, hP.target.symm⟩
  refine ⟨⟨?_, ?_, hbegin c hA.base.stored fun l hl hi => (hstarts l hl hi).1, ?_, ?_⟩,
    fun hunread => ?_, fun rel id content d' hopened => ?_, fun hfalse => ?_⟩
  · exact hA.base.tracked.past hprov.only.fs
      (iff_of_eq (congrArg (· = Mover.idle) hprov.only.mover)) rfl
  · have hlinked : Linked b' :=
      Linked.advance (s := b) hA.base.linked hadv hcross hA.base.stored.fresh
    exact hlinked
  · obtain hb | hwritten := hA.base.coming
    · obtain hb | ⟨hindex, hrel⟩ := hahead hb
      · exact Or.inl hb
      · refine Or.inr (show Written c.len k b' from ?_)
        obtain ⟨hname, hk⟩ := htarget hindex hrel
        refine written_create (s := b) hP hadv hindex (by rw [← hrel]; exact congrArg Pc.reads hpc)
          (by rw [← hname]; exact hfs) fun id' content' file' hopened hfile' dst hdst => ?_
        injection hpc.symm.trans hopened with _ hid
        subst hid
        cases hfile.symm.trans hfile'
        have hpath := (hok (rel, id) (by rw [hpc]; rfl) d' hd file hfile (Or.inl hk)).2.2 dst hdst
        rw [← hpath.1]
        exact hA.base.linked id file.name dst ⟨file, hfile, rfl, hdst⟩
    · have hstored : Stored c (fun l => l = k) b :=
        hA.base.stored.aside rfl rfl rfl rfl fun _ _ _ => Iff.rfl
      have hwritten : Written c.len k b' :=
        Written.advance (s := b) hstored rfl hwritten hadv rfl
      exact Or.inr hwritten
  · intro l hl
    change s₁.fs.node (components d.1 ++ l) = some .directory
    rw [hprov.only.fs]
    exact hA.base.directories l hl
  · have hunread : s.read = false := hunread
    obtain ⟨hb, hstored⟩ := hA.unread hunread
    refine ⟨(hahead hb).resolve_right fun ⟨hindex, hrel⟩ => ?_, fun c' => hbegin c' (hstored c')
      fun l hl hi => ?_⟩
    · obtain ⟨hname, hk⟩ := htarget hindex hrel
      rw [hA.opened rel id content d' hpc hd hname hk] at hunread
      cases hunread
    · obtain ⟨-, hname, hk⟩ := hstarts l hl hi
      rw [hA.opened rel id content d' hpc hd hname hk] at hunread
      cases hunread
  · cases hopened
  · cases hfalse

/-- The copier opens a source. -/
theorem Arrives.openSource (hA : Arrives D old new c k j d front n s)
    (hP : Place D new k j d front n) (hsane : Sane D s) (hcross : Crosses D old new)
    {b : Moves.State} (h : Moves.Advance D old new s.base .openSource b) :
    Arrives D old new c k j d front n { s with
      base := b
      reading := opensMoved D old new s
      read := s.read || opensMoved D old new s } := by
  have hok : ComesAcross D j front n k s.base .openSource := trivial
  refine ⟨hA.base.advance hsane.consistent hP h hcross (by simp) hok, fun hunread => ?_,
    fun rel id content d' hopened hd hname hk => ?_, fun hfalse => ?_⟩
  · obtain ⟨hunread, -⟩ := Bool.or_eq_false_iff.mp hunread
    obtain ⟨hahead, hstored⟩ := hA.unread hunread
    exact ⟨hA.base.stays_ahead hP hahead h hcross (by simp) hok,
      fun c' => (hstored c').crossing hsane.consistent h hcross (by simp)⟩
  · change (s.read || opensMoved D old new s) = true
    refine Bool.or_eq_true_iff.mpr (Or.inr ?_)
    cases h with
    | @openFile rel' id' d'' content' hpc hd' =>
      cases hopened
      have hmoved := hA.base.tracked.reading rel d' (by rw [hpc]; rfl) hd hk
      have hd : D.dirs[s.base.index]? = some d' := hd
      rw [opensMoved, hpc, hd]
      dsimp only
      rw [State.path, if_neg hmoved, hname]
      simp
    | openGone => cases hopened
  · have hopens := hsane.inside (by rw [hfalse]; simp)
    cases h with
    | openFile hpc =>
      rw [hpc] at hopens
      exact absurd rfl hopens
    | openGone hpc =>
      rw [hpc] at hopens
      exact absurd rfl hopens

/-- The other steps. -/
theorem Arrives.step (hA : Arrives D old new c k j d front n s)
    (hP : Place D new k j d front n) (hsane : Sane D s) (hcross : Crosses D old new)
    {b : Moves.State} {a : Moves.Action} (h : Moves.Advance D old new s.base a b)
    (hcreate : a ≠ .create) (hopen : a ≠ .openSource)
    (hok : ComesAcross D j front n k s.base a) :
    Arrives D old new c k j d front n { s with base := b } := by
  refine ⟨hA.base.advance hsane.consistent hP h hcross hcreate hok, fun hunread => ?_,
    fun rel id content d' hopened hd hname hk => ?_, fun hfalse hindex hreads => ?_⟩
  · obtain ⟨hahead, hstored⟩ := hA.unread hunread
    exact ⟨hA.base.stays_ahead hP hahead h hcross hcreate hok,
      fun c' => (hstored c').crossing hsane.consistent h hcross hcreate⟩
  · obtain ⟨hpc, hindex⟩ := opened_before h hcross hcreate hopen hopened
    exact hA.opened rel id content d' hpc (hindex ▸ hd) hname hk
  · obtain ⟨hpc, hindex'⟩ := opens_kept h hcross hcreate (hsane.inside (by rw [hfalse]; simp))
    exact hA.found hfalse (hindex'.symm.trans hindex) (hpc ▸ hreads)

theorem Arrives.advance (hA : Arrives D old new c k j d front n s)
    (hP : Place D new k j d front n) (hsane : Sane D s) (hadv : Advance D old new s a s')
    (hcross : Crosses D old new) (hok : MovesInOk D new j front n k s a) :
    ∃ c', Arrives D old new c' k j d front n s' := by
  cases hadv with
  | look hpc hd => exact ⟨c, hA.look hP hpc hd⟩
  | write hfs => exact ⟨_, hA.write hsane hok hfs⟩
  | createGone hpc hlooked => exact ⟨c, hA.createGone hpc hlooked⟩
  | create hpc hd hlooked hfile hprov =>
    exact ⟨c, hA.create hP hsane hcross hpc hd hlooked hfile hprov (hok.1 rfl hlooked)⟩
  | openSource h => exact ⟨c, hA.openSource hP hsane hcross h⟩
  | base h hcreate hopen => exact ⟨c, hA.step hP hsane hcross h hcreate hopen hok.2⟩

/-! ## The main result -/

variable {t : State} {as : List Action}

/-- The directories stay, and the new path of the file is in one. -/
theorem Advance.directories (h : Advance D old new s a s') :
    (∀ l, s'.base.fs.node l = some .directory ↔ s.base.fs.node l = some .directory) ∧
      (s'.base.mover ≠ .idle → s.base.mover ≠ .idle ∨
        s.base.fs.node (components new).dropLast = some .directory) := by
  cases h with
  | look => exact ⟨fun _ => Iff.rfl, fun hmoved => Or.inl hmoved⟩
  | write hfs => exact ⟨Fs.rewrite_directory hfs, fun hmoved => Or.inl hmoved⟩
  | createGone => exact ⟨fun _ => Iff.rfl, fun hmoved => Or.inl hmoved⟩
  | create _ _ _ _ hprov =>
    refine ⟨fun l => ?_, fun hmoved => Or.inl ?_⟩
    · rw [← hprov.only.fs]
      rfl
    · rw [← hprov.only.mover]
      exact hmoved
  | openSource h => exact h.directories
  | base h => exact h.directories

end

/-! ## Runs -/

instance decidableCreatesIn (D : DirectorySet) (new : Path) (k : List Path) (s : Moves.State) :
    Decidable (CreatesIn D new k s) := by
  unfold CreatesIn
  infer_instance

instance decidableComesAcross (D : DirectorySet) (j : Nat) (front : List Path) (n : Path)
    (k : List Path) (s : Moves.State) (a : Moves.Action) :
    Decidable (ComesAcross D j front n k s a) := by
  apply @Moves.Action.casesOn (fun a => Decidable (ComesAcross D j front n k s a)) a
  case pop =>
    unfold ComesAcross
    infer_instance
  case list =>
    intro entries
    unfold ComesAcross
    infer_instance
  all_goals
    intros
    exact isTrue trivial

instance decidableIsCreate (a : Moves.Action) : Decidable (a = .create) := by
  apply @Moves.Action.casesOn (fun a => Decidable (a = .create)) a
  case create => exact isTrue rfl
  all_goals
    intros
    exact isFalse Moves.Action.noConfusion

instance decidableMovesInOk (D : DirectorySet) (new : Path) (j : Nat) (front : List Path)
    (n : Path) (k : List Path) (s : State) (a : Action) :
    Decidable (MovesInOk D new j front n k s a) := by
  apply @Action.casesOn (fun a => Decidable (MovesInOk D new j front n k s a)) a
  case look => exact isTrue trivial
  all_goals
    intros
    unfold MovesInOk
    infer_instance

/-- The file at `k`, and the copier before its first step. -/
def start (fs : Fs) : State := ⟨startWith fs, none, false, false⟩

end TokuBackup.Moves.Race
