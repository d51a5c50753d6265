import Mathlib.Algebra.Order.BigOperators.Group.List
import TokuBackup.Copier.Steps

/-!
# A quiet tree is copied completely and once

Every run of the copier in which no call fails ends, since each step makes `measure` smaller,
and at the end the destinations are the copies of the trees. Two sources with one destination
are the exception: nothing checks that destinations differ, and each of the two trees gets the
files of both. An open file that two directories of the set contain is another one: it keeps
the destination of the first copy, so that the second copy goes to that file as well.
-/

namespace TokuBackup.Copier

open Kernel Lib

variable {D : DirectorySet} {fs₀ : Fs} {table₀ : Path → Option SourceFile} {s s' : State}

/-! ## The invariant over a run -/

theorem rootsFrom_zero : rootsFrom D 0 = roots D := by
  rw [rootsFrom, roots, List.range_eq_range', Nat.sub_zero]

theorem rootsFrom_of_lt {i : Nat} (h : i < D.dirs.length) :
    rootsFrom D i = (i, []) :: rootsFrom D (i + 1) := by
  have hlen : D.dirs.length - i = (D.dirs.length - (i + 1)) + 1 := by omega
  rw [rootsFrom, hlen, List.range'_succ, List.map_cons]
  rfl

theorem rootsFrom_of_le {i : Nat} (h : D.dirs.length ≤ i) : rootsFrom D i = [] := by
  rw [rootsFrom, Nat.sub_eq_zero_of_le h]
  rfl

theorem Quiet.inv_start (hQ : Quiet D fs₀ table₀) : Inv D fs₀ table₀ (start fs₀ table₀) := by
  refine ⟨[], [], Nat.zero_le _, rfl, ⟨rfl, rfl, ?_⟩, ⟨hQ.mirrored, ?_⟩⟩
  · have hroots : rootsFrom D (start fs₀ table₀).index = roots D := rootsFrom_zero
    rw [hroots]
    exact Explored.start (isForest D fs₀)
  · intro name file hname h
    obtain ⟨hlinked, hnone, -⟩ := hQ.no_destination name file hname h
    exact ⟨hlinked, ⟨file, h, rfl⟩, fun hne => absurd hnone hne⟩

/-- The loop over the directories. -/
theorem inv_next (hI : Inv D fs₀ table₀ s) (hstep : step D s .next = some s') :
    Inv D fs₀ table₀ s' := by
  obtain ⟨fs, table, index, todo, pc, handled⟩ := s
  obtain ⟨seen, pending, hI⟩ := hI
  cases pc with
  | next =>
    obtain ⟨hindex, rfl, hE, hR⟩ := hI
    simp only [step] at hstep
    split at hstep
    · rename_i hlt
      cases hstep
      have htodo : todo = [] := hE.todo
      subst htodo
      refine ⟨seen, [[]], hlt, ⟨hE.handled, ?_, ?_⟩, hR.mirrored, hR.table⟩
      · rfl
      · have hexplored := hE.explored
        dsimp only at hexplored
        rw [rootsFrom_of_lt hlt] at hexplored
        exact hexplored
    · rename_i hge
      cases hstep
      refine ⟨seen, [], rfl, rfl, ⟨hE.handled, hE.todo, ?_⟩, hR.mirrored, hR.table⟩
      have hexplored := hE.explored
      dsimp only at hexplored
      rw [rootsFrom_of_le (by omega)] at hexplored
      exact hexplored
  | loop =>
    obtain ⟨hindex, hE, hR⟩ := hI
    cases todo with
    | cons file todo => cases hstep
    | nil =>
      cases hstep
      have hpending : pending = [] := List.map_eq_nil_iff.mp hE.todo.symm
      subst hpending
      exact ⟨seen, [], hindex, rfl, ⟨hE.handled, hE.todo, hE.explored⟩, hR.mirrored, hR.table⟩
  | reading c => cases hstep
  | writing c buf n => cases hstep
  | returned r => cases hstep

section

variable (hQ : Quiet D fs₀ table₀) (hdiffer : DestinationsDiffer D)
  (honce : OpenFilesCopiedOnce D fs₀ table₀)

include hQ hdiffer honce

/-- The loop over the todo list. -/
theorem inv_pop {entries : List Path} (hI : Inv D fs₀ table₀ s)
    (hstep : step D s (.pop entries) = some s') :
    ∃ seen rel pending later, Exploring D fs₀ s seen (rel :: pending) later ∧
      s.pc = .loop ∧ Popped D fs₀ table₀ s rel s' := by
  obtain ⟨fs, table, index, todo, pc, handled⟩ := s
  obtain ⟨seen, pending, hI⟩ := hI
  cases pc with
  | loop =>
    obtain ⟨hindex, hE, hR⟩ := hI
    have hd := List.getElem?_eq_getElem hindex
    have htodo := hE.todo
    cases pending with
    | nil =>
      dsimp only at htodo
      subst htodo
      cases hstep
    | cons rel pending =>
      dsimp only at htodo hd
      subst htodo
      simp only [step, List.map_cons, hd] at hstep
      obtain ⟨hpopped, -⟩ := popped hQ hdiffer honce hd hE hR
      exact ⟨seen, rel, pending, _, hE, rfl, hpopped entries s' hstep⟩
  | next => cases hstep
  | reading c => cases hstep
  | writing c buf n => cases hstep
  | returned r => cases hstep

theorem inv_step {a : Action} (hI : Inv D fs₀ table₀ s) (hok : Succeeds s a)
    (hstep : step D s a = some s') : Inv D fs₀ table₀ s' := by
  cases a with
  | next => exact inv_next hI hstep
  | pop entries =>
    obtain ⟨_, _, _, _, _, _, hpopped⟩ := inv_pop hQ hdiffer honce hI hstep
    exact hpopped.inv
  | read n =>
    simp only [step] at hstep
    split at hstep
    · rename_i c hpc
      obtain ⟨seen, pending, hI⟩ := hI
      rw [hpc] at hI
      obtain ⟨hE, d, rel, content, w, hB⟩ := hI
      exact inv_read hQ hdiffer hE hB hstep
    · cases hstep
  | write n =>
    simp only [step] at hstep
    split at hstep
    · rename_i c buf m hpc
      obtain ⟨seen, pending, hI⟩ := hI
      rw [hpc] at hI
      obtain ⟨hE, -, d, rel, content, w, hbuf, hn, hB⟩ := hI
      exact inv_write hQ hdiffer hE hn hbuf hB hstep
    · cases hstep
  | fail r => cases hok

end

/-! ## Termination -/

/-- The length of a regular file. -/
def fileLength (fs : Fs) (l : List Path) : Nat :=
  match fs.node l with
  | some (.regular content) => content.len
  | _ => 0

/-- No file is longer. -/
def longest (fs : Fs) : Nat := (fs.nodes.keys.map (fileLength fs)).sum

theorem fileLength_le (fs : Fs) (l : List Path) : fileLength fs l ≤ longest fs := by
  by_cases hl : fs.node l = none
  · rw [fileLength, hl]
    exact Nat.zero_le _
  · apply List.le_sum_of_mem
    exact List.mem_map_of_mem (AList.mem_keys.mp (Fs.mem_nodes.mpr hl))

/-- The bytes that are left, twice, since each is read and written. -/
def Pc.work (fs₀ : Fs) : Pc → Nat
  | .next => 1
  | .loop => 0
  | .reading c => 2 * (fileLength fs₀ (components c.source) - c.offset) + 1
  | .writing c buf n =>
    2 * (fileLength fs₀ (components c.source) - c.offset) + (buf.length - n) + 1
  | .returned _ => 0

/-- What is left to do: the entries, the directories and the bytes. -/
def measure (D : DirectorySet) (fs₀ : Fs) (s : State) : Nat :=
  (2 * longest fs₀ + 2) * ((allItems D fs₀).length - s.handled.length) +
    2 * (D.dirs.length - s.index) + s.pc.work fs₀

theorem Exploring.length_lt (hQ : Quiet D fs₀ table₀) {seen later : List Item} {rel : List Path}
    {pending : List (List Path)} (hE : Exploring D fs₀ s seen (rel :: pending) later) :
    s.handled.length < (allItems D fs₀).length := by
  have hall : ∀ x, Reach (roots D) (children D fs₀) x → x ∈ allItems D fs₀ := by
    intro x hx
    rw [reach_iff fun d hd => by rw [hQ.source_directory d hd]; exact Option.some_ne_none _] at hx
    obtain ⟨d, hd, hx⟩ := hx
    exact mem_allItems hd hx
  have hlen := hE.explored.length_le hall
  rw [hE.handled, List.length_map]
  simp only [List.map_cons, List.cons_append, List.length_cons] at hlen
  omega

section

variable (hQ : Quiet D fs₀ table₀) (hdiffer : DestinationsDiffer D)
  (honce : OpenFilesCopiedOnce D fs₀ table₀)

include hQ hdiffer honce

theorem measure_step {a : Action} (hI : Inv D fs₀ table₀ s) (hok : Succeeds s a)
    (hstep : step D s a = some s') : measure D fs₀ s' < measure D fs₀ s := by
  cases a with
  | next =>
    obtain ⟨seen, pending, hI⟩ := hI
    simp only [step] at hstep
    split at hstep
    · rename_i hpc
      split at hstep
      · cases hstep
        simp only [measure, hpc, Pc.work]
        omega
      · cases hstep
        simp only [measure, hpc, Pc.work]
        omega
    · rename_i hpc
      rw [hpc] at hI
      have hindex := hI.1
      split at hstep
      · cases hstep
        simp only [measure, hpc, Pc.work]
        omega
      · cases hstep
    · cases hstep
  | pop entries =>
    obtain ⟨seen, rel, pending, later, hE, hpc, hpopped⟩ := inv_pop hQ hdiffer honce hI hstep
    have hlt := hE.length_lt hQ
    have hwork : s'.pc.work fs₀ ≤ 2 * longest fs₀ + 1 := by
      rcases hpopped.pc with h | ⟨source, h⟩
      · rw [h]
        exact Nat.zero_le _
      · rw [h]
        have := fileLength_le fs₀ (components source)
        simp only [Pc.work]
        omega
    have hhandled : s'.handled.length = s.handled.length + 1 := by
      rw [hpopped.handled, List.length_append]
      rfl
    obtain ⟨left, hleft⟩ : ∃ left, (allItems D fs₀).length - s.handled.length = left + 1 :=
      ⟨(allItems D fs₀).length - s.handled.length - 1, by omega⟩
    have hleft' : (allItems D fs₀).length - s'.handled.length = left := by omega
    have hloop : s.pc.work fs₀ = 0 := by
      rw [hpc]
      rfl
    rw [measure, measure, hleft, hleft', hpopped.index, hloop, Nat.mul_succ]
    omega
  | read n =>
    simp only [step] at hstep
    split at hstep
    · rename_i c hpc
      obtain ⟨seen, pending, hI⟩ := hI
      rw [hpc] at hI
      obtain ⟨hE, d, rel, content, w, hB⟩ := hI
      have hlength : fileLength fs₀ (components c.source) = content.len := by
        rw [fileLength, hB.source, components_entryPath d.1 hB.copied.1.isEntry, hB.regular]
      rw [readChunk, hB.source_node hQ] at hstep
      dsimp only at hstep
      split at hstep
      · rename_i hn
        split at hstep
        · rename_i hzero
          obtain ⟨table, hfinish, -⟩ := hB.finish hQ hdiffer (hn.2.2 hzero)
          rw [hfinish] at hstep
          cases hstep
          simp only [measure, hpc, Pc.work]
          omega
        · cases hstep
          simp only [measure, hpc, Pc.work, hlength, Content.read_length]
          omega
      · cases hstep
    · cases hstep
  | write n =>
    simp only [step] at hstep
    split at hstep
    · rename_i c buf m hpc
      simp only [writeChunk] at hstep
      split at hstep
      · split at hstep
        · split at hstep
          · rename_i hn
            cases hstep
            simp only [measure, State.setFile, hpc]
            split
            · simp only [Pc.work]
              omega
            · simp only [Pc.work]
              omega
          · cases hstep
        · cases hstep
      · cases hstep
    · cases hstep
  | fail r => cases hok

/-- Until `do_copy` returns there is a call that can succeed. -/
theorem enabled (hI : Inv D fs₀ table₀ s) (hpc : ∀ r, s.pc ≠ .returned r) :
    ∃ a s', Succeeds s a ∧ step D s a = some s' := by
  obtain ⟨seen, pending, hI⟩ := hI
  cases hs : s.pc with
  | next =>
    by_cases hlt : s.index < D.dirs.length
    · refine ⟨.next, ?_⟩
      simp only [step, hs, if_pos hlt]
      exact ⟨_, trivial, rfl⟩
    · refine ⟨.next, ?_⟩
      simp only [step, hs, if_neg hlt]
      exact ⟨_, trivial, rfl⟩
  | loop =>
    rw [hs] at hI
    obtain ⟨hindex, hE, hR⟩ := hI
    have htodo := hE.todo
    cases pending with
    | nil =>
      refine ⟨.next, ?_⟩
      simp only [step, hs, htodo, List.map_nil]
      exact ⟨_, trivial, rfl⟩
    | cons rel pending =>
      have hd := List.getElem?_eq_getElem hindex
      obtain ⟨-, entries, s', hs'⟩ := popped hQ hdiffer honce hd hE hR
      refine ⟨.pop entries, s', trivial, ?_⟩
      simp only [taken, htodo, hs] at hs'
      simp only [step, hs, htodo, List.map_cons, hd]
      exact hs'
  | reading c =>
    rw [hs] at hI
    obtain ⟨hE, d, rel, content, w, hB⟩ := hI
    have hbound := hB.bound
    have hnode := hB.source_node hQ
    refine ⟨.read (min Convergence.bufSize (content.len - c.offset)), ?_⟩
    have hbuf : 0 < Convergence.bufSize := by decide
    simp only [step, hs, readChunk, hnode]
    rw [if_pos ⟨by omega, by omega, by omega⟩]
    split
    · exact ⟨_, trivial, rfl⟩
    · exact ⟨_, trivial, rfl⟩
  | writing c buf n =>
    rw [hs] at hI
    obtain ⟨hE, hlt, d, rel, content, w, -, -, hB⟩ := hI
    obtain ⟨file, hfile, -, hdest, -⟩ := hB.file
    refine ⟨.write (buf.length - n), ?_⟩
    simp only [step, hs, writeChunk, hfile, hdest]
    rw [if_pos ⟨by omega, by omega⟩]
    exact ⟨_, trivial, rfl⟩
  | returned r => exact absurd hs (hpc r)

end

/-! ## The result -/

/-- Each entry under no excluded directory is handled, and handled once. -/
def HandledOnce (D : DirectorySet) (fs₀ : Fs) (s : State) : Prop :=
  s.handled.Nodup ∧ ∀ i name, (i, name) ∈ s.handled ↔
    ∃ d rel, D.dirs[i]? = some d ∧ Handled D fs₀ d.1 rel ∧ name = todoName rel

/-- The destinations hold the entries to be copied and nothing else; the rest of the file
system is as before. -/
structure Copies (D : DirectorySet) (fs₀ fs : Fs) : Prop where
  copied : ∀ d ∈ D.dirs, ∀ rel, Copied D fs₀ d.1 rel →
    fs.node (components d.2 ++ rel) = fs₀.node (components d.1 ++ rel)
  nothing_else : ∀ d ∈ D.dirs, ∀ rel, ¬ Copied D fs₀ d.1 rel → rel ≠ [] →
    fs.node (components d.2 ++ rel) = none
  destination : ∀ d ∈ D.dirs, fs.node (components d.2) = some .directory
  outside : ∀ l, (∀ d ∈ D.dirs, ¬ components d.2 <+: l) → fs.node l = fs₀.node l

section

variable (hQ : Quiet D fs₀ table₀) {seen : List Item}
  (hE : Exploring D fs₀ s seen [] [])

include hQ hE

theorem Exploring.mem_seen {i : Nat} {d : Path × Path} {rel : List Path}
    (hd : D.dirs[i]? = some d) : (i, rel) ∈ seen ↔ Handled D fs₀ d.1 rel := by
  obtain ⟨-, hmem⟩ := hE.explored.complete
  rw [hmem, reach_iff fun d hd => by rw [hQ.source_directory d hd]; exact Option.some_ne_none _]
  dsimp only
  rw [hd]
  simp

theorem Exploring.handledOnce : HandledOnce D fs₀ s := by
  obtain ⟨hnodup, hmem⟩ := hE.explored.complete
  have hreach : ∀ x ∈ seen, ∃ d, D.dirs[x.1]? = some d ∧ Handled D fs₀ d.1 x.2 := by
    intro x hx
    rw [← reach_iff fun d hd => by rw [hQ.source_directory d hd]; exact Option.some_ne_none _]
    exact (hmem x).mp hx
  constructor
  · rw [hE.handled]
    apply List.Nodup.map_on _ hnodup
    intro x hx y hy hxy
    obtain ⟨h₁, h₂⟩ := Prod.mk.inj hxy
    obtain ⟨_, _, hhandled⟩ := hreach x hx
    obtain ⟨_, _, hhandled'⟩ := hreach y hy
    exact Prod.ext h₁ (todoName_injective hhandled.isEntry hhandled'.isEntry h₂)
  · intro i name
    rw [hE.handled, List.mem_map]
    constructor
    · rintro ⟨x, hx, heq⟩
      obtain ⟨rfl, rfl⟩ := Prod.mk.inj heq
      obtain ⟨d, hd, hhandled⟩ := hreach x hx
      exact ⟨d, x.2, hd, hhandled, rfl⟩
    · rintro ⟨d, rel, hd, hhandled, rfl⟩
      exact ⟨(i, rel), (hE.mem_seen hQ hd).mpr hhandled, rfl⟩

theorem Exploring.copies (hR : Resting D fs₀ table₀ s seen) : Copies D fs₀ s.fs := by
  have hinside := hR.mirrored.inside
  constructor
  case copied =>
    intro d hd rel hcopied
    obtain ⟨i, hi⟩ := List.mem_iff_getElem?.mp hd
    have hmem := (hE.mem_seen hQ hi).mpr hcopied.1
    rw [hinside i d rel hi, image_copied hmem hcopied.2]
    exact congrFun Option.map_id _
  case nothing_else =>
    intro d hd rel hnot hrel
    obtain ⟨i, hi⟩ := List.mem_iff_getElem?.mp hd
    rw [hinside i d rel hi, image, if_neg, if_neg hrel]
    rintro ⟨hmem, hex⟩
    exact hnot ⟨(hE.mem_seen hQ hi).mp hmem, hex⟩
  case destination =>
    intro d hd
    obtain ⟨i, hi⟩ := List.mem_iff_getElem?.mp hd
    have hroot := hinside i d [] hi
    rw [List.append_nil] at hroot
    rw [hroot, image]
    split
    · rw [List.append_nil, hQ.source_directory d hd]
      rfl
    · exact if_pos rfl
  case outside => exact hR.mirrored.outside

end

/-- The copier ends, returns `0`, handles each entry once and makes the copies. -/
theorem quiet_tree_copied (D : DirectorySet) (fs : Fs) (table : Path → Option SourceFile)
    (hQ : Quiet D fs table) (hdiffer : DestinationsDiffer D)
    (honce : OpenFilesCopiedOnce D fs table) :
    (∃ bound, ∀ as t, RunOk (step D) Succeeds (start fs table) as →
      run (step D) (start fs table) as = some t → as.length ≤ bound) ∧
    ∀ as t, RunOk (step D) Succeeds (start fs table) as →
      run (step D) (start fs table) as = some t →
      ((∀ r, t.pc ≠ .returned r) → ∃ a t', Succeeds t a ∧ step D t a = some t') ∧
      ∀ r, t.pc = .returned r → r = 0 ∧ HandledOnce D fs t ∧ Copies D fs t.fs := by
  constructor
  · refine ⟨measure D fs (start fs table), fun as t hok hrun => ?_⟩
    refine run_length_le (fun s a s' hI hok hstep => ?_) hQ.inv_start hok hrun
    exact ⟨inv_step hQ hdiffer honce hI hok hstep, measure_step hQ hdiffer honce hI hok hstep⟩
  · intro as t hok hrun
    have hI : Inv D fs table t := run_invariant
      (fun s a s' hI hok hstep => inv_step hQ hdiffer honce hI hok hstep) hQ.inv_start hok hrun
    refine ⟨enabled hQ hdiffer honce hI, fun r hr => ?_⟩
    obtain ⟨seen, pending, hI⟩ := hI
    rw [hr] at hI
    obtain ⟨hzero, rfl, hE, hR⟩ := hI
    exact ⟨hzero, hE.handledOnce hQ, hE.copies hQ hR⟩

/-! ## Concrete trees -/

/-- `/a` with a file `x`, `/b` with a file `y`, and the empty directories `/d` and `/e`. -/
def smallTree : Fs :=
  .ofNodes [⟨[], .directory⟩, ⟨[['a']], .directory⟩, ⟨[['b']], .directory⟩,
    ⟨[['d']], .directory⟩, ⟨[['e']], .directory⟩,
    ⟨[['a'], ['x']], .regular (Content.empty.write 0 [1, 2])⟩,
    ⟨[['b'], ['y']], .regular .empty⟩].toAList (by decide)

/-- `/a/x` is open in the application. -/
def openFile (name : Path) : Option SourceFile :=
  if name = ['/', 'a', '/', 'x'] then some ⟨1, false, none⟩ else none

theorem openFile_fresh {name : Path} {file : SourceFile} (h : openFile name = some file) :
    file.unlinked = false ∧ file.destination = none ∧ 0 < file.references := by
  rw [openFile] at h
  split at h
  · cases h
    exact ⟨rfl, rfl, Nat.one_pos⟩
  · cases h

/-- One directory, one file that is open. -/
def oneDirectory : DirectorySet := ⟨[(['/', 'a'], ['/', 'd'])], fun _ => false⟩

theorem oneDirectory_quiet : Quiet oneDirectory smallTree openFile where
  source_directory := by decide
  dest_directory := by decide
  dest_empty := by decide
  dest_outside := by decide
  no_destination _ _ _ := openFile_fresh

theorem quiet_tree_copied_one :
    (∃ bound, ∀ as t, RunOk (step oneDirectory) Succeeds (start smallTree openFile) as →
      run (step oneDirectory) (start smallTree openFile) as = some t → as.length ≤ bound) ∧
    ∀ as t, RunOk (step oneDirectory) Succeeds (start smallTree openFile) as →
      run (step oneDirectory) (start smallTree openFile) as = some t →
      ((∀ r, t.pc ≠ .returned r) → ∃ a t', Succeeds t a ∧ step oneDirectory t a = some t') ∧
      ∀ r, t.pc = .returned r →
        r = 0 ∧ HandledOnce oneDirectory smallTree t ∧ Copies oneDirectory smallTree t.fs := by
  apply quiet_tree_copied oneDirectory smallTree openFile oneDirectory_quiet
  · decide
  · intro i j d d' rel rel' hd hd' hij
    have hi := (List.getElem?_eq_some_iff.mp hd).1
    have hj := (List.getElem?_eq_some_iff.mp hd').1
    simp only [oneDirectory, List.length_cons, List.length_nil] at hi hj
    omega

/-- Both sources have the destination `/d`. -/
def sameDestination : DirectorySet :=
  ⟨[(['/', 'a'], ['/', 'd']), (['/', 'b'], ['/', 'd'])], fun _ => false⟩

/-- One source has two destinations. -/
def sameSource : DirectorySet :=
  ⟨[(['/', 'a'], ['/', 'd']), (['/', 'a'], ['/', 'e'])], fun _ => false⟩

/-- Without the two conditions the copies are wrong: the file of one source is in the
destination of the other; an open file is missing in the second destination. -/
theorem quiet_tree_miscopied :
    (∃ as t, Quiet sameDestination smallTree (fun _ => none) ∧
      RunOk (step sameDestination) Succeeds (start smallTree fun _ => none) as ∧
      run (step sameDestination) (start smallTree fun _ => none) as = some t ∧
      t.pc = .returned 0 ∧ ¬ Copies sameDestination smallTree t.fs) ∧
    ∃ as t, Quiet sameSource smallTree openFile ∧ DestinationsDiffer sameSource ∧
      RunOk (step sameSource) Succeeds (start smallTree openFile) as ∧
      run (step sameSource) (start smallTree openFile) as = some t ∧
      t.pc = .returned 0 ∧ ¬ Copies sameSource smallTree t.fs := by
  constructor
  · have hrun : ∃ as t, run (step sameDestination) (start smallTree fun _ => none) as = some t ∧
        t.pc = .returned 0 ∧ (∀ a ∈ as, ∀ s, Succeeds s a) ∧
        t.fs.node [['d'], ['y']] ≠ none := by
      refine ⟨[.next, .pop [['x']], .pop [], .read 2, .write 2, .read 0, .next, .next,
        .pop [['y']], .pop [], .read 0, .next, .next], _, rfl, rfl, ?_, ?_⟩
      · simp [Succeeds]
      · decide +kernel
    obtain ⟨as, t, hrun, hpc, hok, hnode⟩ := hrun
    refine ⟨as, t, ⟨by decide, by decide, by decide, by decide, nofun⟩, runOk_of_mem hok, hrun,
      hpc, ?_⟩
    intro h
    apply hnode
    apply h.nothing_else (['/', 'a'], ['/', 'd']) (by decide) [['y']] _ (by decide)
    intro hcopied
    exact hcopied.1.1 (by decide)
  · have hrun : ∃ as t, run (step sameSource) (start smallTree openFile) as = some t ∧
        t.pc = .returned 0 ∧ (∀ a ∈ as, ∀ s, Succeeds s a) ∧
        t.fs.node [['e'], ['x']] = none := by
      refine ⟨[.next, .pop [['x']], .pop [], .read 2, .write 2, .read 0, .next, .next,
        .pop [['x']], .pop [], .read 2, .write 2, .read 0, .next, .next], _, rfl, rfl, ?_, ?_⟩
      · simp [Succeeds]
      · decide +kernel
    obtain ⟨as, t, hrun, hpc, hok, hnode⟩ := hrun
    refine ⟨as, t, ⟨by decide, by decide, by decide, by decide, fun _ _ _ => openFile_fresh⟩,
      by decide, runOk_of_mem hok, hrun, hpc, ?_⟩
    intro h
    have hcopied : Copied sameSource smallTree ['/', 'a'] [['x']] :=
      ⟨⟨by decide, fun _ _ _ => rfl⟩, rfl⟩
    have hcopy := h.copied (['/', 'a'], ['/', 'e']) (by decide) [['x']] hcopied
    exact absurd (hcopy.symm.trans hnode) (by decide)

end TokuBackup.Copier
