import TokuBackup.Moves.Crossing

/-!
# A rename in the middle of a section

A rename across the boundary of the backup takes no lock of the section in which the copier
looks for the source and creates its copy. Here `lstat` is a step of its own, and what is
created afterwards depends on what it has found. The application may also change the file that
moves, through descriptors of source files that have no destination; the copier reads what the
file holds by then.
-/

namespace TokuBackup.Moves.Race

open Kernel Lib

structure State where
  base : Moves.State
  /-- What `lstat` has found, until the end of the section. -/
  looked : Option Bool
  /-- The source that the copier has opened last is the file that moves. -/
  reading : Bool
  /-- The copier has opened the file that moves. -/
  read : Bool

inductive Action where
  /-- `lstat` in the first section of `create_destination_and_copy`. -/
  | look
  /-- A `write` or `ftruncate` of the application; the file that moves now holds `content`. -/
  | write (content : Content)
  /-- A step of the coarser machine; creating the copy depends on what `lstat` has found. -/
  | base (a : Moves.Action)

/-- The path of the file that moves. -/
def State.path (s : State) (old new : Path) : List Path :=
  if s.base.mover = .idle then components old else components new

/-- The source that the copier has open holds `content`. -/
def reread (content : Content) : Pc → Pc
  | .opened rel file _ => .opened rel file content
  | .copying file _ total => .copying file content total
  | pc => pc

/-- The step needs the mutex of the file table, or another step of the copier. -/
def excluded (D : DirectorySet) (old new : Path) : Moves.Action → Bool
  | .capture => D.isPrefixOfRealpath old && D.isPrefixOfRealpath new
  | .fail _ => true
  | _ => false

/-- The copier is about to open the file that moves. -/
def opensMoved (D : DirectorySet) (old new : Path) (s : State) : Bool :=
  match s.base.pc, D.dirs[s.base.index]? with
  | .attached rel _, some (source, _) => components source ++ rel = s.path old new
  | _, _ => false

def step (D : DirectorySet) (old new : Path) (s : State) : Action → Option State
  | .look =>
    match s.base.pc, D.dirs[s.base.index]?, s.looked with
    | .opened rel _ _, some (source, _), none =>
      some { s with looked := some (decide (s.base.fs.node (components source ++ rel) ≠ none)) }
    | _, _, _ => none
  | .write content =>
    (s.base.fs.rewrite (s.path old new) content).map fun fs =>
      { s with base := { s.base with
          fs := fs
          pc := if s.reading then reread content s.base.pc else s.base.pc } }
  | .base .create =>
    match s.base.pc, D.dirs[s.base.index]?, s.looked with
    | .opened rel file content, some (_, dest), some found =>
      some { s with
        base := if found then provideDestination s.base dest rel file content
          else { s.base with pc := .copied file }
        looked := none }
    | _, _, _ => none
  | .base .openSource =>
    (Moves.step D old new s.base .openSource).map fun base =>
      { s with
        base := base
        reading := opensMoved D old new s
        read := s.read || opensMoved D old new s }
  | .base a =>
    if s.looked.isSome ∧ excluded D old new a then none
    else (Moves.step D old new s.base a).map fun base => { s with base := base }

/-- The session as the copier finds it. -/
structure Begins (s : State) : Prop where
  base : Moves.Begins s.base
  looked : s.looked = none
  reading : s.reading = false
  read : s.read = false

/-! ## What a step does -/

/-- What a step does, unless the backup has failed. -/
inductive Advance (D : DirectorySet) (old new : Path) (s : State) : Action → State → Prop
  | look {rel id content d} (hpc : s.base.pc = .opened rel id content)
      (hd : D.dirs[s.base.index]? = some d) (hlooked : s.looked = none) :
      Advance D old new s .look
        { s with looked := some (decide (s.base.fs.node (components d.1 ++ rel) ≠ none)) }
  | write {fs content} (hfs : s.base.fs.rewrite (s.path old new) content = some fs) :
      Advance D old new s (.write content) { s with base := { s.base with
        fs := fs
        pc := if s.reading then reread content s.base.pc else s.base.pc } }
  | createGone {rel id content} (hpc : s.base.pc = .opened rel id content)
      (hlooked : s.looked = some false) :
      Advance D old new s (.base .create)
        { s with base := { s.base with pc := .copied id }, looked := none }
  | create {rel id content d file s₁ dest} (hpc : s.base.pc = .opened rel id content)
      (hd : D.dirs[s.base.index]? = some d) (hlooked : s.looked = some true)
      (hfile : s.base.heap id = some file)
      (hprov : Provides s.base file (components d.2 ++ rel) s₁ dest) :
      Advance D old new s (.base .create) { s with
        base := { s₁.setFile id (some { file with destination := some dest }) with
          pc := .copying id content 0 }
        looked := none }
  | openSource {b} (h : Moves.Advance D old new s.base .openSource b) :
      Advance D old new s (.base .openSource) { s with
        base := b
        reading := opensMoved D old new s
        read := s.read || opensMoved D old new s }
  | base {a b} (h : Moves.Advance D old new s.base a b) (hcreate : a ≠ .create)
      (hopen : a ≠ .openSource) : Advance D old new s (.base a) { s with base := b }

section

variable {D : DirectorySet} {old new : Path} {s s' : State} {a : Action}

theorem step_cases (hC : Consistent s.base) (h : step D old new s a = some s')
    (hok : ¬ Failed s'.base) : Advance D old new s a s' := by
  have hplain : ∀ b : Moves.Action, b ≠ .create → b ≠ .openSource →
      (Moves.step D old new s.base b).map (fun base => { s with base := base }) = some s' →
        Advance D old new s (.base b) s' := by
    intro b hcreate hopen hmap
    obtain ⟨base, hbase, rfl⟩ := Option.map_eq_some_iff.mp hmap
    exact .base (Moves.step_cases hC hbase hok) hcreate hopen
  cases a with
  | look =>
    simp only [step] at h
    split at h
    · rename_i rel id content source dest hpc hd hlooked
      cases h
      exact .look hpc hd hlooked
    · cases h
  | write content =>
    obtain ⟨fs, hfs, rfl⟩ := Option.map_eq_some_iff.mp h
    exact .write hfs
  | base b =>
    cases b with
    | create =>
      simp only [step] at h
      split at h
      · rename_i rel id content source dest found hpc hd hlooked
        obtain ⟨file, hfile⟩ := hC.held id (by rw [hpc]; rfl)
        cases found with
        | false =>
          cases h
          exact .createGone hpc hlooked
        | true =>
          cases h
          obtain ⟨s₁, dst, hprov, hs₁⟩ := provideDestination_cases hfile rfl hok
          rw [if_pos rfl, hs₁]
          exact .create hpc hd hlooked hfile hprov
      · cases h
    | openSource =>
      obtain ⟨base, hbase, rfl⟩ := Option.map_eq_some_iff.mp h
      exact .openSource (Moves.step_cases hC hbase hok)
    | _ =>
      simp only [step] at h
      split at h
      · cases h
      · exact hplain _ (by simp) (by simp) h

/-- The copier stands where it stood, unless it is its turn to create the copy. -/
theorem opens_kept {b b' : Moves.State} {a : Moves.Action} (h : Moves.Advance D old new b a b')
    (hcross : Crosses D old new) (hcreate : a ≠ .create) (hopens : b.pc.opens ≠ none) :
    b'.pc = b.pc ∧ b'.index = b.index := by
  cases ha : a.byCopier with
  | false =>
    have haside := h.aside hcross ha
    exact ⟨haside.pc, haside.index⟩
  | true => cases h <;> simp_all [Pc.opens, Action.byCopier]

/-- The table is consistent; inside the section the copier has the source open, and when `lstat`
has found it, there was a file. -/
structure Sane (D : DirectorySet) (s : State) : Prop where
  consistent : Consistent s.base
  inside : s.looked ≠ none → s.base.pc.opens ≠ none
  seen : s.looked = some true → ∀ x ∈ s.base.pc.opens, ∀ d ∈ D.dirs[s.base.index]?,
    ∃ fs : Fs, fs.node (components d.1 ++ x.1) ≠ none
  reading : s.reading = true → s.read = true

theorem openCreate_withFs {b : Moves.State} {fs : Fs} {k : List Path} :
    ({ b with fs := fs } : Moves.State).openCreate k =
      (b.openCreate k).map fun x => ({ x.1 with fs := fs }, x.2) := by
  simp only [State.openCreate]
  split
  · rfl
  · rfl
  · rw [apply_ite (Except.map _)]
    rfl

/-- The same, seen by another file system. -/
theorem provides_withFs {b b₁ : Moves.State} {file : SourceFile} {k : List Path}
    {dest : DestinationFile} (h : Provides b file k b₁ dest) (fs : Fs) :
    Provides { b with fs := fs } file k { b₁ with fs := fs } dest := by
  obtain ⟨hdest, rfl⟩ | ⟨hnone, inode, hopen, hd⟩ := h
  · exact Or.inl ⟨hdest, rfl⟩
  · refine Or.inr ⟨hnone, inode, ?_, hd⟩
    rw [openCreate_withFs, hopen]
    rfl

/-- Creating the copy is a step of the coarser machine in the file system that `lstat` saw. -/
theorem create_advance {b b₁ : Moves.State} {rel : List Path} {id : Nat} {content : Content}
    {d : Path × Path} {file : SourceFile} {dest : DestinationFile} {fs : Fs}
    (hpc : b.pc = .opened rel id content) (hd : D.dirs[b.index]? = some d)
    (hseen : fs.node (components d.1 ++ rel) ≠ none) (hfile : b.heap id = some file)
    (hprov : Provides b file (components d.2 ++ rel) b₁ dest) :
    Moves.Advance D old new { b with fs := fs } .create
      { ({ b₁ with fs := fs } : Moves.State).setFile id
          (some { file with destination := some dest }) with
        pc := .copying id content 0 } :=
  .create hpc hd hseen hfile (provides_withFs hprov fs)

theorem consistent_withFs {b : Moves.State} (h : Consistent b) (fs : Fs) :
    Consistent { b with fs := fs } :=
  ⟨h.listed, h.named, h.counted, h.fresh, h.held⟩

theorem file_reread {content : Content} {pc : Pc} : (reread content pc).file = pc.file := by
  cases pc <;> rfl

theorem opens_reread {content : Content} {pc : Pc} : (reread content pc).opens = pc.opens := by
  cases pc <;> rfl

theorem Sane.advance (h : Sane D s) (hadv : Advance D old new s a s') (hcross : Crosses D old new)
    (hne : components old ≠ components new) : Sane D s' := by
  obtain ⟨hC, hinside, hseen, hreading⟩ := h
  cases hadv with
  | @look rel id content d hpc hd hlooked =>
    refine ⟨hC, fun _ => ?_, fun htrue x hx d' hd' => ⟨s.base.fs, ?_⟩, hreading⟩
    · change s.base.pc.opens ≠ none
      rw [hpc]
      simp [Pc.opens]
    · have hx : s.base.pc.opens = some x := hx
      have hd' : D.dirs[s.base.index]? = some d' := hd'
      rw [hpc] at hx
      cases hx
      rw [hd] at hd'
      cases hd'
      exact of_decide_eq_true (Option.some.inj htrue)
  | @write fs content hfs =>
    have hopens : (if s.reading then reread content s.base.pc else s.base.pc).opens =
        s.base.pc.opens := by
      split
      · exact opens_reread
      · rfl
    refine ⟨⟨hC.listed, hC.named, hC.counted, hC.fresh, fun id hid => hC.held id ?_⟩,
      fun hlooked => ?_, fun hlooked x hx => hseen hlooked x ?_, hreading⟩
    · change (if s.reading then reread content s.base.pc else s.base.pc).file = some id at hid
      split at hid
      · rw [file_reread] at hid
        exact hid
      · exact hid
    · exact hopens ▸ hinside hlooked
    · exact hopens ▸ hx
  | @createGone rel id content hpc hlooked =>
    refine ⟨⟨hC.listed, hC.named, hC.counted, hC.fresh, fun id' hid => hC.held id' ?_⟩,
      fun hlooked => absurd rfl hlooked, (fun hlooked => by cases hlooked), hreading⟩
    cases hid
    rw [hpc]
    rfl
  | @create rel id content d file s₁ dest hpc hd hlooked hfile hprov =>
    obtain ⟨fs, hfs⟩ := hseen hlooked (rel, id) (by rw [hpc]; rfl) d hd
    have hmoves := (consistent_withFs hC fs).crossing
      (create_advance hpc hd hfs hfile hprov) hcross hne
    exact ⟨⟨hmoves.listed, hmoves.named, hmoves.counted, hmoves.fresh, hmoves.held⟩,
      fun hlooked => absurd rfl hlooked, (fun hlooked => by cases hlooked), hreading⟩
  | @openSource b hb =>
    have hfree : s.looked = none := by
      by_contra hlooked
      have hopens := hinside hlooked
      cases hb with
      | openFile hpc =>
        rw [hpc] at hopens
        exact hopens rfl
      | openGone hpc =>
        rw [hpc] at hopens
        exact hopens rfl
    refine ⟨hC.crossing hb hcross hne, fun hlooked => absurd hfree hlooked,
      fun hlooked => ?_, fun hopens => ?_⟩
    · change s.looked = some true at hlooked
      rw [hfree] at hlooked
      cases hlooked
    · change (s.read || opensMoved D old new s) = true
      rw [show opensMoved D old new s = true from hopens, Bool.or_true]
  | @base a b hb hcreate hopen =>
    refine ⟨hC.crossing hb hcross hne, fun hlooked => ?_, fun hlooked x hx d hd => ?_, hreading⟩
    · rw [(opens_kept hb hcross hcreate (hinside hlooked)).1]
      exact hinside hlooked
    · have hsome : s.looked ≠ none := by
        change s.looked = some true at hlooked
        rw [hlooked]
        simp
      obtain ⟨hpc, hindex⟩ := opens_kept hb hcross hcreate (hinside hsome)
      rw [hpc] at hx
      rw [hindex] at hd
      exact hseen hlooked x hx d hd

/-! ## Runs -/

variable {t : State} {as : List Action}

end

end TokuBackup.Moves.Race
