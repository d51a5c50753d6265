import TokuBackup.Convergence.Truncation
import TokuBackup.HotCopy.Main
import Mathlib.Algebra.Order.BigOperators.Group.List

/-!
# The copy comes to an end

Until the walk ends it has a next step, unless a call holds a range of the file that is passed
over: nothing else can make it wait. And when the calls leave off, each of its steps makes a
measure smaller: the chunks of a pass leave less of the file, and every entry is handled once.
-/

namespace TokuBackup.HotCopy

open Kernel Copier Lib

variable {D : DirectorySet} {tree : Fs} {s s' : State} {f f' : Convergence.State}

/-- The steps of the walk and of a pass, in which no call fails. -/
def isWalk : Action → Bool
  | .next => true
  | .pop _ => true
  | .copier _ => true
  | _ => false

/-! ## The next step -/

/-- Nothing is locked when nobody holds a range. -/
theorem lockedRanges_nil (h : Convergence.Inv f) (hfree : ∀ p, Convergence.heldBy f p = none) :
    f.lockedRanges = [] := by
  rw [List.eq_nil_iff_forall_not_mem]
  intro r hr
  obtain ⟨p, hp⟩ := (h.locks.locked r).exists_of_pos (List.count_pos_iff.mpr hr)
  rw [hfree] at hp
  cases hp

/-- No call holds a range of the file. -/
def Free (f : Convergence.State) : Prop := ∀ t, Convergence.effectOf f t = none

/-- While no call holds a range of the file, the pass over it can take its next step. -/
theorem pass_enabled (h : Convergence.Inv f) (hfree : Free f)
    (hover : ∀ eof, f.copier.pc ≠ .over eof) :
    ∃ n f', Convergence.step f (.copier n) = some f' := by
  simp only [Convergence.step, Convergence.stepCopier]
  cases hpc : f.copier.pc with
  | loop =>
    have hnil : f.lockedRanges = [] := by
      apply lockedRanges_nil h
      intro p
      cases p with
      | none => simp only [Convergence.heldBy, Convergence.Copier.held, hpc]
      | some t => simp only [Convergence.heldBy, hfree t, Option.map_none]
    refine ⟨0, ?_⟩
    rw [hnil]
    exact ⟨_, rfl⟩
  | locked =>
    by_cases hend : f.src.len ≤ f.copier.sourceOffset
    · refine ⟨0, ?_⟩
      simp only [if_pos hend, if_true]
      exact ⟨_, rfl⟩
    · have hbuf : 0 < Convergence.bufSize := by decide
      refine ⟨min Convergence.bufSize (f.src.len - f.copier.sourceOffset), ?_⟩
      simp only [if_neg hend]
      rw [if_pos ⟨by omega, by omega, by omega⟩]
      exact ⟨_, rfl⟩
  | writing chunk =>
    refine ⟨0, ?_⟩
    dsimp only
    split
    · split
      · exact ⟨_, rfl⟩
      · exact ⟨_, rfl⟩
    · exact ⟨_, rfl⟩
  | «over» eof => exact absurd hpc (hover eof)
  | _ => exact ⟨0, _, rfl⟩

theorem Inv.enabled (h : Inv D tree s) (hsource : ∀ d ∈ D.dirs, tree.node (components d.1) ≠ none)
    (hreturned : ∀ r, s.pc ≠ .returned r) (hstopped : s.pc ≠ .stopped)
    (hfree : ∀ file, s.pc = .copying file → Free (s.files file)) :
    ∃ a s', isWalk a = true ∧ step D tree s a = some s' := by
  obtain ⟨seen, pending, hwalk⟩ := h.walk
  cases hpc : s.pc with
  | next =>
    refine ⟨.next, ?_⟩
    simp only [step, hpc]
    split
    · exact ⟨_, rfl, rfl⟩
    · exact ⟨_, rfl, rfl⟩
  | loop =>
    cases htodo : s.todo with
    | nil =>
      refine ⟨.next, ?_⟩
      simp only [step, hpc, htodo]
      exact ⟨_, rfl, rfl⟩
    | cons file todo =>
      obtain ⟨d, rel, later, hd, -, rfl, hE, hP⟩ := loop_head hpc hwalk htodo
      obtain ⟨entries, s', hs'⟩ := (popped hsource h.files hd hE hP).2
      refine ⟨.pop entries, s', rfl, ?_⟩
      simp only [step, hpc, htodo, hd]
      rw [taken, htodo, List.tail_cons] at hs'
      exact hs'
  | copying file =>
    rw [hpc] at hwalk
    obtain ⟨-, -, -, hU⟩ := hwalk
    obtain ⟨n, f', hf'⟩ := pass_enabled (h.files file hU.regular) (hfree file hpc) hU.notOver
    refine ⟨.copier n, ?_⟩
    simp only [step, copyStep, hpc, hf']
    exact ⟨_, rfl, rfl⟩
  | returned r => exact absurd hpc (hreturned r)
  | stopped => exact absurd hpc hstopped

/-! ## The measure of a pass -/

/-- How many bytes of the file are left to copy. -/
def left (f : Convergence.State) : Nat := f.src.len - f.copier.totalWrittenThisFile

/-- More than the steps that the pass still takes. -/
def passWork (f : Convergence.State) : Convergence.CopierPc → Nat
  | .start => 4 * f.src.len + 13
  | .attached => 4 * f.src.len + 12
  | .opened => 4 * f.src.len + 11
  | .created => 4 * f.src.len + 10
  | .loop => 4 * left f + 9
  | .locked => 4 * left f + 8
  | .writing _ => 4 * left f + 7
  | .wrote n => if n = 0 then 5 else 4 * left f + 10
  | .aborted => 4
  | .copied _ => 4
  | .returned _ => 3
  | .closed _ => 2
  | .over _ => 0

theorem passWork_le (f : Convergence.State) (pc : Convergence.CopierPc) :
    passWork f pc ≤ 4 * f.src.len + 13 := by
  have hleft : left f ≤ f.src.len := Nat.sub_le _ _
  cases pc with
  | wrote n =>
    simp only [passWork]
    split
    · omega
    · omega
  | _ =>
    simp only [passWork]
    omega

theorem stepCopier_src {n : Nat} (hstep : Convergence.stepCopier f n = some f') :
    f'.src = f.src := by
  simp only [Convergence.stepCopier] at hstep
  split at hstep
  case h_3 =>
    cases hstep
    obtain ⟨dest, fresh, hframe⟩ := Convergence.tryToCreateDestinationFile_frame f
    rw [hframe]
  case h_5 =>
    obtain ⟨l, -, rfl⟩ := Option.map_eq_some_iff.mp hstep
    rfl
  case h_6 =>
    split at hstep
    · cases (Option.ite_none_right_eq_some.mp hstep).2
      rfl
    · cases (Option.ite_none_right_eq_some.mp hstep).2
      rfl
  case h_7 =>
    split at hstep
    · split at hstep
      · cases hstep
        rfl
      · cases hstep
        rfl
    · cases hstep
      rfl
  case h_8 | h_9 =>
    cases hstep
    unfold Convergence.unlock
    split <;> rfl
  case h_10 =>
    cases hstep
    obtain ⟨dest, hframe⟩ := Convergence.tryToRemoveDestination_frame f
    rw [hframe]
  case h_12 =>
    cases hstep
    obtain ⟨dest, l, hframe⟩ := Convergence.tryToRemoveLocked_frame f
    rw [hframe]
  case h_13 => cases hstep
  all_goals
    cases hstep
    rfl

/-- Every step of a pass leaves less to do. -/
theorem passWork_step {n : Nat} (h : Convergence.Inv f) (h' : Convergence.Inv f')
    (hstep : Convergence.stepCopier f n = some f') :
    passWork f' f'.copier.pc < passWork f f.copier.pc := by
  have hsrc := stepCopier_src hstep
  have hfault := h'.fault
  simp only [Convergence.stepCopier] at hstep
  split at hstep
  case h_1 hpc =>
    cases hstep
    dsimp only at hsrc
    rw [hpc]
    simp only [passWork, hsrc]
    omega
  case h_2 hpc =>
    cases hstep
    rw [hpc]
    simp only [passWork]
    omega
  case h_3 hpc =>
    cases hstep
    dsimp only at hsrc
    rw [hpc]
    simp only [passWork, hsrc]
    omega
  case h_4 hpc =>
    cases hstep
    rw [hpc]
    simp only [passWork, left]
    omega
  case h_5 hpc =>
    obtain ⟨l, -, rfl⟩ := Option.map_eq_some_iff.mp hstep
    rw [hpc]
    simp only [passWork, left]
    omega
  case h_6 hpc =>
    split at hstep
    · cases (Option.ite_none_right_eq_some.mp hstep).2
      rw [hpc]
      simp only [passWork, if_true]
      omega
    · cases (Option.ite_none_right_eq_some.mp hstep).2
      rw [hpc]
      simp only [passWork, left]
      omega
  case h_7 chunk hpc =>
    obtain ⟨hne, -, hfits, -⟩ := h.data.chunk chunk hpc
    have hpos : 0 < chunk.length := List.length_pos_iff.mpr hne
    split at hstep
    · split at hstep
      · cases hstep
        rw [hpc]
        simp only [passWork, left]
        rw [if_neg (by omega)]
        omega
      · cases hstep
        cases hfault
    · cases hstep
      cases hfault
  case h_8 m hpc =>
    cases hstep
    rw [hpc]
    dsimp only
    split
    · rename_i hzero
      simp only [passWork, hzero, if_true]
      omega
    · rename_i hzero
      have hunlock := unlock_copier f f.copier.range
      simp only [passWork, left, if_neg hzero, hunlock] at hsrc ⊢
      rw [hsrc]
      omega
  case h_9 hpc =>
    cases hstep
    rw [hpc]
    simp only [passWork]
    omega
  case h_10 hpc =>
    cases hstep
    rw [hpc]
    simp only [passWork]
    omega
  case h_11 hpc =>
    cases hstep
    rw [hpc]
    simp only [passWork]
    omega
  case h_12 hpc =>
    cases hstep
    rw [hpc]
    simp only [passWork]
    omega
  case h_13 => cases hstep

/-! ## The measure of the walk -/

/-- What the walk still has to do besides the entries that are not handled. -/
def Pc.work (D : DirectorySet) (s : State) : Pc → Nat
  | .next => 2 * (D.dirs.length - s.index) + 1
  | .loop => 2 * (D.dirs.length - s.index)
  | .copying file =>
    2 * (D.dirs.length - s.index) + passWork (s.files file) (s.files file).copier.pc
  | _ => 0

/-- `longest` bounds the work of a pass. -/
def measure (D : DirectorySet) (tree : Fs) (longest : Nat) (s : State) : Nat :=
  (longest + 1) * ((allItems D tree).length - s.handled.length) + s.pc.work D s

/-- No call holds a range, and the files are no longer than that. -/
structure Calm (tree : Fs) (longest : Nat) (s : State) : Prop where
  free : ∀ file, isRegular (tree.node file) = true → Free (s.files file)
  short : ∀ file, isRegular (tree.node file) = true →
    4 * (s.files file).src.len + 13 ≤ longest

theorem Calm.update {longest : Nat} (h : Calm tree longest s) {file : List Path}
    (hthreads : f.threads = (s.files file).threads) (hsrc : f.src = (s.files file).src)
    (hfiles : s'.files = Function.update s.files file f) : Calm tree longest s' where
  free file' hregular := by
    rw [hfiles]
    by_cases heq : file' = file
    · subst heq
      rw [Function.update_self]
      intro t
      rw [Convergence.effectOf_congr hthreads]
      exact h.free file' hregular t
    · rw [Function.update_of_ne heq]
      exact h.free file' hregular
  short file' hregular := by
    rw [hfiles]
    by_cases heq : file' = file
    · subst heq
      rw [Function.update_self, hsrc]
      exact h.short file' hregular
    · rw [Function.update_of_ne heq]
      exact h.short file' hregular

theorem Calm.congr {longest : Nat} (h : Calm tree longest s) (hfiles : s'.files = s.files) :
    Calm tree longest s' :=
  ⟨hfiles ▸ h.free, hfiles ▸ h.short⟩

/-- There are entries left while one is on the todo list. -/
theorem handled_lt {seen later : List Item} {pending : List (List Path)} {rel : List Path}
    (hsource : ∀ d ∈ D.dirs, tree.node (components d.1) ≠ none)
    (hE : Exploring D tree s seen (rel :: pending) later) :
    s.handled.length < (allItems D tree).length := by
  have hle := hE.explored.length_le fun x hx => by
    rw [reach_iff hsource] at hx
    obtain ⟨d, hd, hhandled⟩ := hx
    exact mem_allItems hd hhandled
  have hlen : s.handled.length = seen.length := by
    have hhandled : s.handled = seen.map fun x => (x.1, todoName x.2) := hE.handled
    rw [hhandled, List.length_map]
  rw [List.map_cons, List.cons_append, List.length_cons] at hle
  omega

section

variable {longest : Nat}

/-- What handling an entry changes. -/
theorem copyFullPath_frame {t : State} {source dest file : Path} {entries : List Path}
    (h : copyFullPath D tree t source dest file entries = some s') :
    s'.files = t.files ∧ s'.index = t.index ∧ s'.handled = t.handled ∧
      ((∃ r, s'.pc = .returned r) ∨ s'.pc = .loop ∨
        ∃ file, isRegular (tree.node file) = true ∧ s'.pc = .copying file) := by
  rw [copyFullPath] at h
  split at h
  · cases h
    exact ⟨rfl, rfl, rfl, Or.inr (Or.inl rfl)⟩
  · split at h
    · cases h
      refine ⟨rfl, rfl, rfl, ?_⟩
      dsimp only
      split
      · exact Or.inr (Or.inl rfl)
      · exact Or.inl ⟨_, rfl⟩
    · rename_i hstat
      cases h
      refine ⟨rfl, rfl, rfl, Or.inr (Or.inr ⟨_, ?_, rfl⟩)⟩
      rw [Fs.stat] at hstat
      split at hstat
      · rename_i hnode
        cases hstat
        rw [hnode]
        rfl
      · cases hstat
    · obtain ⟨-, h⟩ := Option.ite_none_right_eq_some.mp h
      cases h
      exact ⟨rfl, rfl, rfl, Or.inr (Or.inl rfl)⟩

theorem pop_measure {entries : List Path} (h : Inv D tree s) (hC : Calm tree longest s)
    (hsource : ∀ d ∈ D.dirs, tree.node (components d.1) ≠ none)
    (hstep : step D tree s (.pop entries) = some s') :
    Calm tree longest s' ∧ measure D tree longest s' < measure D tree longest s := by
  simp only [step] at hstep
  split at hstep
  · rename_i file todo source dest hpc htodo hdir
    obtain ⟨seen, pending, hwalk⟩ := h.walk
    obtain ⟨d, rel, later, hd, -, -, hE, hP⟩ := loop_head hpc hwalk htodo
    have hlt := handled_lt hsource hE
    have hframe : s'.files = s.files ∧ s'.index = s.index ∧
        s'.handled = s.handled ++ [(s.index, file)] ∧
        ((∃ r, s'.pc = .returned r) ∨ s'.pc = .loop ∨
          ∃ file, isRegular (tree.node file) = true ∧ s'.pc = .copying file) := by
      rw [copyStrippedFile] at hstep
      split at hstep
      · exact copyFullPath_frame hstep
      · exact copyFullPath_frame hstep
    obtain ⟨hfiles, hindex, hhandled, hafter⟩ := hframe
    refine ⟨hC.congr hfiles, ?_⟩
    have hwork : s'.pc.work D s' ≤ 2 * (D.dirs.length - s.index) + longest := by
      rcases hafter with ⟨r, hr⟩ | hloop | ⟨file', hregular, hcopying⟩
      · rw [hr]
        exact Nat.zero_le _
      · rw [hloop]
        simp only [Pc.work, hindex]
        omega
      · rw [hcopying]
        simp only [Pc.work, hindex, hfiles]
        have hpass := passWork_le (s.files file') (s.files file').copier.pc
        have hshort := hC.short file' hregular
        omega
    obtain ⟨n, hn⟩ : ∃ n, (allItems D tree).length - s.handled.length = n + 1 :=
      ⟨(allItems D tree).length - s.handled.length - 1, by omega⟩
    have hn' : (allItems D tree).length - s'.handled.length = n := by
      rw [hhandled, List.length_append, List.length_singleton]
      omega
    rw [measure, measure, hn, hn', hpc, Nat.mul_succ]
    simp only [Pc.work] at hwork ⊢
    omega
  · cases hstep

theorem next_measure (h : Inv D tree s) (hC : Calm tree longest s)
    (hstep : step D tree s .next = some s') :
    Calm tree longest s' ∧ measure D tree longest s' < measure D tree longest s := by
  simp only [step] at hstep
  split at hstep
  · rename_i hpc
    split at hstep
    · cases hstep
      refine ⟨hC.congr rfl, ?_⟩
      simp only [measure, hpc, Pc.work]
      omega
    · cases hstep
      refine ⟨hC.congr rfl, ?_⟩
      simp only [measure, hpc, Pc.work]
      omega
  · rename_i hpc
    obtain ⟨seen, pending, hwalk⟩ := h.walk
    rw [hpc] at hwalk
    have hindex := hwalk.1
    split at hstep
    · cases hstep
      refine ⟨hC.congr rfl, ?_⟩
      simp only [measure, hpc, Pc.work]
      omega
    · cases hstep
  · cases hstep

theorem copier_measure {n : Nat} (h : Inv D tree s) (h' : Inv D tree s')
    (hC : Calm tree longest s) (hstep : copyStep s (.copier n) = some s') :
    Calm tree longest s' ∧ measure D tree longest s' < measure D tree longest s := by
  simp only [copyStep] at hstep
  split at hstep
  · rename_i file hpc
    obtain ⟨f, hf, rfl⟩ := Option.map_eq_some_iff.mp hstep
    obtain ⟨seen, pending, hwalk⟩ := h.walk
    rw [hpc] at hwalk
    obtain ⟨-, -, -, hU⟩ := hwalk
    have hfile := h'.files file hU.regular
    dsimp only at hfile
    rw [Function.update_self] at hfile
    have hless := passWork_step (h.files file hU.regular) hfile hf
    refine ⟨hC.update (Convergence.stepCopier_threads hf) (stepCopier_src hf) rfl, ?_⟩
    have hafter : ∀ pc, (afterPass file pc).work D
        { s with files := Function.update s.files file f, pc := afterPass file f.copier.pc } ≤
        2 * (D.dirs.length - s.index) + passWork f f.copier.pc := by
      intro pc
      cases pc with
      | «over» eof =>
        cases eof with
        | true => simp only [afterPass, Pc.work]; omega
        | false => simp only [afterPass, Pc.work]; omega
      | _ =>
        simp only [afterPass, Pc.work, Function.update_self]
        omega
    have hwork := hafter f.copier.pc
    rw [measure, measure, hpc]
    simp only [Pc.work] at hwork ⊢
    omega
  · cases hstep

end

theorem exists_longest (tree : Fs) (s : State) :
    ∃ longest, ∀ file, isRegular (tree.node file) = true →
      4 * (s.files file).src.len + 13 ≤ longest := by
  refine ⟨(tree.nodes.keys.map fun file => 4 * (s.files file).src.len + 13).sum, ?_⟩
  intro file hregular
  have hmem : file ∈ tree.nodes.keys := by
    rw [AList.mem_keys.symm, Fs.mem_nodes]
    intro hnone
    rw [hnone] at hregular
    cases hregular
  exact List.single_le_sum (fun _ _ => Nat.zero_le _) _ (List.mem_map_of_mem hmem)

/-- In every state that a run reaches, the walk has ended or has a next step, unless a call
holds a range of the file that is passed over. When no call holds a range of any file and the
calls leave off, the walk ends: there is a bound on the steps that it can still take, and
where it can take none it has ended. -/
theorem walk_completes (hsource : ∀ d ∈ D.dirs, tree.node (components d.1) ≠ none)
    (hapart : SourcesApart D) {t : State} {as : List Action} (hs : Initial tree s)
    (hok : RunOk (step D tree) (NoTruncateRace D) s as)
    (hrun : run (step D tree) s as = some t) :
    ((∀ r, t.pc ≠ .returned r) → t.pc ≠ .stopped →
      (∀ file, t.pc = .copying file → Free (t.files file)) →
      ∃ a t', isWalk a = true ∧ step D tree t a = some t') ∧
    ((∀ file, isRegular (tree.node file) = true → Free (t.files file)) →
      ∃ bound, ∀ bs u, (∀ b ∈ bs, isWalk b = true) → run (step D tree) t bs = some u →
        bs.length ≤ bound ∧
        ((∀ b u', isWalk b = true → step D tree u b ≠ some u') →
          (∃ r, u.pc = .returned r) ∨ u.pc = .stopped)) := by
  have hinv := inv_run hsource hapart hs hok hrun
  refine ⟨fun hreturned hstopped hfree => hinv.enabled hsource hreturned hstopped hfree,
    fun hfree => ?_⟩
  obtain ⟨longest, hlongest⟩ := exists_longest tree t
  have hstep : ∀ s a s', Inv D tree s ∧ Calm tree longest s → isWalk a = true →
      step D tree s a = some s' → (Inv D tree s' ∧ Calm tree longest s') ∧
        measure D tree longest s' < measure D tree longest s := by
    rintro s a s' ⟨h, hC⟩ ha hstep
    have hrace : NoTruncateRace D s a := by
      cases a with
      | app x a => cases ha
      | _ => trivial
    have h' := inv_step hsource hapart h hrace hstep
    cases a with
    | next =>
      obtain ⟨hC', hless⟩ := next_measure h hC hstep
      exact ⟨⟨h', hC'⟩, hless⟩
    | pop entries =>
      obtain ⟨hC', hless⟩ := pop_measure h hC hsource hstep
      exact ⟨⟨h', hC'⟩, hless⟩
    | copier n =>
      obtain ⟨hC', hless⟩ := copier_measure h h' hC hstep
      exact ⟨⟨h', hC'⟩, hless⟩
    | _ => cases ha
  refine ⟨measure D tree longest t, fun bs u hbs hrun => ?_⟩
  have hwalk : RunOk (step D tree) (fun _ a => isWalk a = true) t bs :=
    runOk_of_mem fun b hb _ => hbs b hb
  have hstart : Inv D tree t ∧ Calm tree longest t := ⟨hinv, hfree, hlongest⟩
  refine ⟨run_length_le hstep hstart hwalk hrun, fun hstuck => ?_⟩
  obtain ⟨hinv', hC'⟩ := run_invariant (fun s a s' h ha hs => (hstep s a s' h ha hs).1) hstart
    hwalk hrun
  by_contra hgoes
  rw [not_or, not_exists] at hgoes
  have hcopying : ∀ file, u.pc = .copying file → Free (u.files file) := by
    intro file hpc
    obtain ⟨seen, pending, hW⟩ := hinv'.walk
    rw [hpc] at hW
    obtain ⟨-, -, -, hU⟩ := hW
    exact hC'.free file hU.regular
  obtain ⟨b, u', hb, hstep'⟩ := hinv'.enabled hsource hgoes.1 hgoes.2 hcopying
  exact hstuck b u' hb hstep'

/-- The copier is at the file, and no call is in flight. -/
def atTheFile : List Action := [.next, .pop [['x']], .pop [], .copier 0]

theorem walk_completes_atTheFile :
    ∃ t, run (step oneDirectory smallTree) oneFile atTheFile = some t ∧
      ∃ bound, ∀ bs u, (∀ b ∈ bs, isWalk b = true) →
        run (step oneDirectory smallTree) t bs = some u → bs.length ≤ bound ∧
        ((∀ b u', isWalk b = true → step oneDirectory smallTree u b ≠ some u') →
          (∃ r, u.pc = .returned r) ∨ u.pc = .stopped) := by
  have hok : RunOk (step oneDirectory smallTree) (NoTruncateRace oneDirectory) oneFile
      atTheFile := by decide +kernel
  have hrun : ∃ t, run (step oneDirectory smallTree) oneFile atTheFile = some t ∧
      ∀ file, (t.files file).threads = [.idle, .idle] := by
    refine ⟨_, rfl, fun file => ?_⟩
    dsimp only
    rw [Function.update_apply]
    split
    · rfl
    · rfl
  obtain ⟨t, hrun, hthreads⟩ := hrun
  refine ⟨t, hrun,
    (walk_completes (by decide) (oneDirectory_apart _) initial_oneFile hok hrun).2 ?_⟩
  intro file _ p
  rw [Convergence.effectOf, hthreads]
  rcases p with _ | _ | p
  all_goals rfl

end TokuBackup.HotCopy
