import TokuBackup.DoBackup.Model

/-!
# The validation of the destinations

`validate` goes over the destination directories and stops at one that it cannot use. Only
the result of `verify_destination_is_empty` does not stop it: the `stat` of the next
directory takes its place. `accepts_iff` says for which destinations the result is right all
the same.
-/

namespace TokuBackup.DoBackup

open Kernel Lib Script

/-! ## The state of the destinations -/

/-- What the calls of `validate` find at a destination. -/
structure Destination where
  stat : Except Errno FileKind
  opendir : Option Errno
  /-- What `readdir` returns, until its end or its failure. -/
  entries : List Path
  ending : Option Errno
  closedir : Option Errno

namespace Destination

variable (d : Destination)

/-- It is a directory that can be opened and closed. -/
def Accessible : Prop := d.stat = .ok .directory ∧ d.opendir = none ∧ d.closedir = none

/-- It can be read to its end and is empty. -/
def Clean : Prop := (∀ n ∈ d.entries, isDot n = true) ∧ d.ending = none

def Usable : Prop := d.Accessible ∧ d.Clean

/-- The error that ends the loop of `validate`. -/
def access : Option Errno :=
  match d.stat with
  | .error e => some e
  | .ok .directory => d.opendir.or d.closedir
  | .ok _ => some .einval

/-- The error of `verify_destination_is_empty`. -/
def emptiness : Option Errno := if d.entries.all isDot then d.ending else some .einval

end Destination

/-- The last `readdir`. -/
def ended (index : Nat) (ending : Option Errno) : Event :=
  ⟨.readdirDestination index, ending.elim (.ok none) .error⟩

/-- The calls of `verify_destination_is_empty`. -/
def readings (index : Nat) (ending : Option Errno) : List Path → List Event
  | [] => [ended index ending]
  | n :: rest =>
    ⟨.readdirDestination index, .ok (some n)⟩ ::
      if isDot n = true then readings index ending rest else []

/-- The calls of a round of `validate`. -/
def roundOf (d : Destination) (index : Nat) : List Event :=
  ⟨.statDestination index, d.stat⟩ ::
    match d.stat with
    | .ok .directory =>
      ⟨.opendirDestination index, d.opendir⟩ ::
        if d.opendir = none then
          readings index d.ending d.entries ++ [⟨.closedirDestination index, d.closedir⟩]
        else []
    | _ => []

/-- The calls of `validate` for the `n` destinations from `i` on. -/
def calls (F : Nat → Destination) : Nat → Nat → List Event
  | 0, _ => []
  | n + 1, i => roundOf (F i) i ++ if (F i).access = none then calls F n (i + 1) else []

/-! ## What the validation is meant for -/

/-- `validate` returns 0 for destinations in the state `F`. -/
def Accepts (D : DirectorySet) (F : Nat → Destination) : Prop :=
  ∀ m, Runs (validate D) (calls F D.dirs.length 0) m 0 []

/-- The destinations are accepted exactly when all are usable, and `do_backup` makes no
further call unless they are. -/
structure Validates (D : DirectorySet) (F : Nat → Destination) : Prop where
  accepts : Accepts D F ↔ ∀ i < D.dirs.length, (F i).Usable
  copies : ∀ (x : Request), x.dirs = D → ∀ m m' r es, m.isDead = false →
    doBackup x (⟨.poll, (0 : Int)⟩ :: ⟨.trylock, none⟩ :: (calls F D.dirs.length 0 ++ es), m) =
      some (r, [], m') → es ≠ [] → ∀ i < D.dirs.length, (F i).Usable

/-! ## The calls of one directory -/

/-- The value of `errno`, 0 without an error. -/
def codeOf (error : Option Errno) : Int := error.elim 0 Errno.code

theorem codeOf_eq_zero {error : Option Errno} : codeOf error = 0 ↔ error = none := by
  cases error with
  | none => exact iff_of_true rfl rfl
  | some e => exact iff_of_false e.code_ne nofun

section

variable {d : Destination} {F : Nat → Destination} {D : DirectorySet} {index n i : Nat}

theorem accessible_iff : d.Accessible ↔ d.access = none := by
  rw [Destination.Accessible, Destination.access]
  split
  · rename_i h
    exact iff_of_false (fun ha => by rw [h] at ha; exact nomatch ha.1) nofun
  · rename_i h
    rw [Option.or_eq_none_iff, h]
    exact and_iff_right rfl
  · rename_i hne h
    exact iff_of_false (fun ha => hne (Except.ok.inj (h.symm.trans ha.1))) nofun

theorem clean_iff : d.Clean ↔ d.emptiness = none := by
  rw [Destination.Clean, Destination.emptiness, ← List.all_eq_true]
  split
  · rename_i h
    exact and_iff_right h
  · rename_i h
    exact iff_of_false (fun hc => h hc.1) nofun

/-- The loop of `verify_destination_is_empty` on what `readdir` returns. -/
theorem runs_readings (ending : Option Errno) (entries : List Path) (es : List Event)
    (m : Manager) {body : Unit → BackupM (Int ⊕ Unit)} {fuel : Nat}
    (hfuel : (readings index ending entries).length ≤ fuel)
    (hdot : ∀ n, isDot n = true → ∀ es m,
      Runs (body ()) (⟨.readdirDestination index, .ok (some n)⟩ :: es) m (.inr ()) es)
    (hforeign : ∀ n, isDot n = false → ∀ es m,
      Runs (body ()) (⟨.readdirDestination index, .ok (some n)⟩ :: es) m
        (.inl Errno.einval.code) es)
    (hend : ∀ error es m, Runs (body ()) (ended index error :: es) m (.inl (codeOf error)) es) :
    Runs (iterate body fuel ()) (readings index ending entries ++ es) m
      (codeOf (if entries.all isDot then ending else some .einval)) es := by
  induction entries generalizing fuel m with
  | nil =>
    obtain ⟨fuel, rfl⟩ := Nat.exists_eq_add_of_le' hfuel
    exact runs_iterate_inl (hend ending es m)
  | cons n entries ih =>
    rw [readings, List.length_cons] at hfuel
    obtain ⟨fuel, rfl⟩ := Nat.exists_eq_add_of_le' (Nat.le_trans (Nat.le_add_left 1 _) hfuel)
    rw [readings, List.all_cons]
    cases hn : isDot n with
    | true =>
      rw [hn, if_pos rfl] at hfuel
      rw [if_pos rfl, Bool.true_and]
      exact runs_iterate_inr (hdot n hn _ m) fun m' => ih m' (Nat.le_of_succ_le_succ hfuel)
    | false =>
      rw [if_neg Bool.false_ne_true, Bool.false_and, if_neg Bool.false_ne_true]
      exact runs_iterate_inl (hforeign n hn es m)

theorem runs_verifyDestinationIsEmpty (d : Destination) (index : Nat) (es : List Event)
    (m : Manager) :
    Runs (verifyDestinationIsEmpty index) (readings index d.ending d.entries ++ es) m
      (codeOf d.emptiness) es := by
  refine runs_readings d.ending d.entries es m ?_ ?_ ?_ ?_
  · rw [List.length_append]
    omega
  · intro n hn es m
    refine runs_call ?_
    dsimp only
    rw [if_pos hn]
    exact runs_pure
  · intro n hn es m
    refine runs_call ?_
    dsimp only
    rw [if_neg (by rw [hn]; exact Bool.false_ne_true)]
    exact runs_change runs_pure
  · intro error es m
    cases error with
    | none => exact runs_call runs_pure
    | some e => exact runs_call (runs_change runs_pure)

/-! ## The result -/

/-- What `validate` returns for the `n` destinations from `i` on, with `r` from the ones
before. -/
def verdict (F : Nat → Destination) : Nat → Nat → Int → Int
  | 0, _, r => r
  | n + 1, i, _ =>
    if (F i).access = none then verdict F n (i + 1) (codeOf (F i).emptiness)
    else codeOf (F i).access

theorem runs_validateFrom (F : Nat → Destination) (n i : Nat) (r : Int) (es : List Event)
    (m : Manager) : Runs (validateFrom n i r) (calls F n i ++ es) m (verdict F n i r) es := by
  induction n generalizing i r m with
  | zero => exact runs_pure
  | succ n ih =>
    have hround : calls F (n + 1) i ++ es = roundOf (F i) i ++
        ((if (F i).access = none then calls F n (i + 1) else []) ++ es) := List.append_assoc _ _ _
    rw [hround, roundOf, verdict]
    refine runs_call ?_
    cases hstat : (F i).stat with
    | error e =>
      have haccess : (F i).access = some e := by rw [Destination.access, hstat]
      rw [haccess, if_neg (Option.some_ne_none e), if_neg (Option.some_ne_none e)]
      exact runs_change runs_pure
    | ok kind =>
      cases kind with
      | regular =>
        have haccess : (F i).access = some .einval := by rw [Destination.access, hstat]
        rw [haccess, if_neg (Option.some_ne_none _), if_neg (Option.some_ne_none _)]
        exact runs_change runs_pure
      | other =>
        have haccess : (F i).access = some .einval := by rw [Destination.access, hstat]
        rw [haccess, if_neg (Option.some_ne_none _), if_neg (Option.some_ne_none _)]
        exact runs_change runs_pure
      | directory =>
        have haccess : (F i).access = (F i).opendir.or (F i).closedir := by
          rw [Destination.access, hstat]
        rw [haccess]
        refine runs_call ?_
        cases hopen : (F i).opendir with
        | some e =>
          rw [Option.some_or, if_neg (Option.some_ne_none e), if_neg (Option.some_ne_none e),
            if_neg (Option.some_ne_none e)]
          exact runs_change runs_pure
        | none =>
          rw [Option.none_or, if_pos rfl]
          change Runs _ ((readings i (F i).ending (F i).entries ++
            [(⟨.closedirDestination i, (F i).closedir⟩ : Event)]) ++ _) m _ es
          rw [List.append_assoc]
          refine (runs_verifyDestinationIsEmpty (F i) i _ m).bind fun m' => runs_call ?_
          cases hclose : (F i).closedir with
          | some e =>
            rw [if_neg (Option.some_ne_none e)]
            exact runs_change runs_pure
          | none =>
            rw [if_pos rfl, if_pos rfl]
            exact ih (i + 1) _ m'

/-- The result is that of the last destination when no round ends the loop. -/
theorem verdict_eq_zero (F : Nat → Destination) (n i : Nat) (r : Int) :
    verdict F n i r = 0 ↔ (∀ k < n, (F (i + k)).access = none) ∧
      (n = 0 → r = 0) ∧ ∀ k, n = k + 1 → (F (i + k)).emptiness = none := by
  induction n generalizing i r with
  | zero => simp [verdict]
  | succ n ih =>
    rw [verdict]
    by_cases haccess : (F i).access = none
    · rw [if_pos haccess, ih]
      constructor
      · rintro ⟨hall, hzero, hlast⟩
        refine ⟨fun k hk => ?_, nofun, fun k hk => ?_⟩
        · cases k with
          | zero => exact haccess
          | succ k =>
            have h := hall k (Nat.lt_of_succ_lt_succ hk)
            rw [Nat.add_right_comm] at h
            exact h
        · obtain rfl : n = k := Nat.succ.inj hk
          cases n with
          | zero => exact codeOf_eq_zero.mp (hzero rfl)
          | succ n =>
            have h := hlast n rfl
            rw [Nat.add_right_comm] at h
            exact h
      · rintro ⟨hall, -, hlast⟩
        refine ⟨fun k hk => ?_, fun hn => ?_, fun k hk => ?_⟩
        · rw [Nat.add_right_comm]
          exact hall (k + 1) (Nat.succ_lt_succ hk)
        · subst hn
          exact codeOf_eq_zero.mpr (hlast 0 rfl)
        · subst hk
          rw [Nat.add_right_comm]
          exact hlast (k + 1) rfl
    · rw [if_neg haccess]
      refine iff_of_false (fun h => haccess (codeOf_eq_zero.mp h)) ?_
      rintro ⟨hall, -⟩
      exact haccess (hall 0 (Nat.succ_pos n))

theorem runs_validate (F : Nat → Destination) (es : List Event) (m : Manager) :
    Runs (validate D) (calls F D.dirs.length 0 ++ es) m (verdict F D.dirs.length 0 0) es :=
  runs_validateFrom F _ 0 0 es m

theorem accepts_iff_verdict : Accepts D F ↔ verdict F D.dirs.length 0 0 = 0 := by
  constructor
  · intro h
    obtain ⟨m', hrun⟩ := h ⟨false, false, false, [], [], false, []⟩
    obtain ⟨m'', hrun'⟩ := runs_validate (D := D) F [] ⟨false, false, false, [], [], false, []⟩
    rw [List.append_nil, hrun] at hrun'
    exact (congrArg Prod.fst (Option.some.inj hrun')).symm
  · intro h m
    have hrun := runs_validate (D := D) F [] m
    rwa [List.append_nil, h] at hrun

/-- After a `validate` that fails, `do_backup` makes no call. -/
theorem accepts_of_copies {x : Request} (hx : x.dirs = D) {m m' : Manager} {r : Int}
    {es : List Event} (halive : m.isDead = false)
    (hrun : doBackup x (⟨.poll, (0 : Int)⟩ :: ⟨.trylock, none⟩ ::
      (calls F D.dirs.length 0 ++ es), m) = some (r, [], m')) (hes : es ≠ []) : Accepts D F := by
  rw [accepts_iff_verdict]
  by_contra hne
  have hfail : Runs (doBackup x) (⟨.poll, (0 : Int)⟩ :: ⟨.trylock, none⟩ ::
      (calls F D.dirs.length 0 ++ es)) m (verdict F D.dirs.length 0 0) es := by
    refine runs_state ?_
    rw [halive, if_neg Bool.false_ne_true]
    refine runs_call ?_
    rw [if_neg (not_not_intro rfl)]
    refine runs_call ?_
    rw [hx]
    refine (runs_validate F es m).bind fun m' => ?_
    rw [if_pos hne]
    exact runs_pure
  obtain ⟨m'', hfail⟩ := hfail
  rw [hrun, Option.some.injEq, Prod.mk.injEq, Prod.mk.injEq] at hfail
  exact hes hfail.2.1.symm

end

/-! ## The main result -/

/-- The validation accepts exactly the usable destinations if and only if one of them cannot be
accessed, or the last one is not empty, or all are. -/
theorem validates_iff (D : DirectorySet) (F : Nat → Destination) :
    Validates D F ↔ ((∀ i < D.dirs.length, (F i).Accessible) →
      (∀ k, D.dirs.length = k + 1 → (F k).Clean) → ∀ i < D.dirs.length, (F i).Clean) := by
  have hverdict : Accepts D F ↔ (∀ i < D.dirs.length, (F i).Accessible) ∧
      ∀ k, D.dirs.length = k + 1 → (F k).Clean := by
    simp only [accepts_iff_verdict, verdict_eq_zero, Nat.zero_add, accessible_iff, clean_iff,
      implies_true, true_and]
  constructor
  · intro h haccess hlast i hi
    exact (h.accepts.mp (hverdict.mpr ⟨haccess, hlast⟩) i hi).2
  · intro h
    have haccepts : Accepts D F ↔ ∀ i < D.dirs.length, (F i).Usable := by
      rw [hverdict]
      constructor
      · rintro ⟨haccess, hlast⟩ i hi
        exact ⟨haccess i hi, h haccess hlast i hi⟩
      · intro hall
        exact ⟨fun i hi => (hall i hi).1, fun k hk => (hall k (by omega)).2⟩
    exact ⟨haccepts, fun x hx m m' r es halive hrun hes =>
      haccepts.mp (accepts_of_copies hx halive hrun hes)⟩

/-- The first of two destinations has a file in it. -/
def firstNotEmpty : Nat → Destination
  | 0 => ⟨.ok .directory, none, [['.'], ['.', '.'], ['f']], none, none⟩
  | _ => ⟨.ok .directory, none, [['.'], ['.', '.']], none, none⟩

def twoDestinations : DirectorySet :=
  ⟨[("/s1".toList, "/b1".toList), ("/s2".toList, "/b2".toList)], fun _ => false⟩

/-- The file in the first destination is forgotten. -/
theorem not_validates_firstNotEmpty :
    ¬ ∀ (D : DirectorySet) (F : Nat → Destination), Validates D F := by
  intro h
  have haccepts : Accepts twoDestinations firstNotEmpty := accepts_iff_verdict.mpr (by decide)
  have husable := (h twoDestinations firstNotEmpty).accepts.mp haccepts 0 (by decide)
  exact absurd (husable.2.1 ['f'] (by decide)) (by decide)

end TokuBackup.DoBackup
