import TokuBackup.Lib.Simulation
import Mathlib.Algebra.Ring.Int.Defs
import Mathlib.Algebra.Ring.Nat
import Mathlib.Data.List.ReduceOption
import Mathlib.Logic.Function.Basic

/-!
# The map of open files

`fmap` finds the description of an fd in the vector `m_map`, which `put` makes longer as far as
it has to and nothing makes shorter. Every operation holds `get_put_mutex`, so that each is one
step. An `int` is an `Int` in its range; `(size_t)fd` of a negative `fd` is an index far past
every vector.

What the map is for: it is a partial function on the fds, with one more than the largest fd
that was ever put. A description is deleted by `erase` or by the destructor, never twice.
-/

namespace TokuBackup

open Lib

/-! ## The vector -/

/-- `(size_t)fd` -/
def sizeT (fd : Int) : Nat := (fd % 2 ^ 64).toNat

structure Fmap (Description : Type) where
  /-- `m_map`; `none` is a null pointer. -/
  map : List (Option Description)
  /-- Ghost: what was deleted. -/
  deleted : List Description

inductive FmapError where
  /-- `glass_assert(m_map[fd] == NULL)` fails. -/
  | assertion
  /-- `m_map[fd]` lies outside of the vector. -/
  | outOfRange
  deriving DecidableEq

namespace Fmap

variable {Description : Type}

def empty : Fmap Description := ⟨[], []⟩

def getUnlocked (m : Fmap Description) (fd : Int) : Option Description :=
  if fd < 0 then none
  else if m.map.length ≤ sizeT fd then none
  else (m.map[sizeT fd]?).join

/-- The loop of `grow_array`, for an `fd` that is not negative. -/
def pushNulls (map : List (Option Description)) (fd : Nat) : List (Option Description) :=
  map ++ List.replicate (fd + 1 - map.length) none

def growArray (map : List (Option Description)) (fd : Int) : List (Option Description) :=
  if 0 ≤ fd then pushNulls map (sizeT fd) else map

def put (m : Fmap Description) (fd : Int) (file : Description) :
    Except FmapError (Fmap Description) :=
  let map := growArray m.map fd
  match map[sizeT fd]? with
  | none => .error .outOfRange
  | some (some _) => .error .assertion
  | some none => .ok { m with map := map.set (sizeT fd) (some file) }

/-- `erase`, which always returns 0. -/
def erase (m : Fmap Description) (fd : Int) : Fmap Description :=
  if m.map.length ≤ sizeT fd then m
  else
    { map := m.map.set (sizeT fd) none
      deleted := m.deleted ++ ((m.map[sizeT fd]?).join).toList }

def size (m : Fmap Description) : Nat := m.map.length

/-- The destructor. -/
def destroy (m : Fmap Description) : Fmap Description :=
  { map := m.map.map fun _ => none, deleted := m.deleted ++ m.map.reduceOption }

end Fmap

/-! ## The operations -/

inductive FmapOperation (Description : Type) where
  | get (fd : Int)
  | put (fd : Int) (file : Description)
  | erase (fd : Int)
  | size

inductive FmapAnswer (Description : Type) where
  | file (result : Option Description)
  | int (result : Nat)
  | none

variable {Description : Type}

def Fmap.perform (m : Fmap Description) :
    FmapOperation Description → Except FmapError (FmapAnswer Description × Fmap Description)
  | .get fd => .ok (.file (m.getUnlocked fd), m)
  | .put fd file => do
    let m ← m.put fd file
    return (.none, m)
  | .erase fd => .ok (.int 0, m.erase fd)
  | .size => .ok (.int m.size, m)

/-- What the map is for: the descriptions of the fds, and one more than the largest fd that was
put. -/
structure OpenFiles (Description : Type) where
  find : Int → Option Description
  bound : Nat

def OpenFiles.empty : OpenFiles Description := ⟨fun _ => none, 0⟩

def OpenFiles.apply (t : OpenFiles Description) :
    FmapOperation Description → FmapAnswer Description × OpenFiles Description
  | .get fd => (.file (t.find fd), t)
  | .put fd file => (.none,
      { find := Function.update t.find fd (some file), bound := max t.bound (sizeT fd + 1) })
  | .erase fd => (.int 0, { t with find := Function.update t.find fd none })
  | .size => (.int t.bound, t)

/-- `fd` is an `int`. -/
def IsInt (fd : Int) : Prop := -2 ^ 31 ≤ fd ∧ fd < 2 ^ 31

/-- The kernel hands out an fd that is not negative and that is not open; the application may
ask for any. -/
def OpenFiles.Allows (t : OpenFiles Description) : FmapOperation Description → Prop
  | .get fd => IsInt fd
  | .put fd _ => IsInt fd ∧ 0 ≤ fd ∧ t.find fd = none
  | .erase fd => IsInt fd
  | .size => True

/-- The descriptions that the operations put into the map. -/
def putFiles : List (FmapOperation Description) → List Description
  | [] => []
  | .put _ file :: as => file :: putFiles as
  | _ :: as => putFiles as

/-! ## The vector after an operation -/

theorem sizeT_of_nonneg {fd : Int} (h : IsInt fd) (hfd : 0 ≤ fd) : (sizeT fd : Int) = fd := by
  obtain ⟨-, hlt⟩ := h
  rw [sizeT]
  omega

/-- An index past every vector. -/
theorem sizeT_of_neg {fd : Int} (h : IsInt fd) (hfd : fd < 0) : 2 ^ 31 < sizeT fd := by
  obtain ⟨hle, -⟩ := h
  rw [sizeT]
  omega

theorem sizeT_injective {fd fd' : Int} (h : IsInt fd) (h' : IsInt fd')
    (heq : sizeT fd = sizeT fd') :
    fd = fd' := by
  obtain ⟨hle, hlt⟩ := h
  obtain ⟨hle', hlt'⟩ := h'
  rw [sizeT, sizeT] at heq
  omega

namespace Fmap

variable {m m' : Fmap Description} {fd : Int} {file : Description}

theorem getUnlocked_eq (h : IsInt fd) (hsize : m.map.length ≤ 2 ^ 31) :
    m.getUnlocked fd = (m.map[sizeT fd]?).join := by
  rw [getUnlocked]
  split
  · rename_i hneg
    rw [List.getElem?_eq_none (by have := sizeT_of_neg h hneg; omega)]
    rfl
  · split
    · rename_i hpast
      rw [List.getElem?_eq_none hpast]
      rfl
    · rfl

theorem getElem?_pushNulls {map : List (Option Description)} {n i : Nat} :
    ((pushNulls map n)[i]?).join = (map[i]?).join := by
  rw [pushNulls]
  by_cases hlt : i < map.length
  · rw [List.getElem?_append_left hlt]
  · rw [List.getElem?_append_right (by omega), List.getElem?_eq_none (l := map) (by omega),
      List.getElem?_replicate]
    split
    · rfl
    · rfl

theorem length_pushNulls {map : List (Option Description)} {n : Nat} :
    (pushNulls map n).length = max map.length (n + 1) := by
  rw [pushNulls, List.length_append, List.length_replicate]
  omega

/-- Where nothing is, `put` succeeds. -/
theorem put_eq (hfd : 0 ≤ fd) (hnone : (m.map[sizeT fd]?).join = none) :
    m.put fd file =
      .ok { m with map := (pushNulls m.map (sizeT fd)).set (sizeT fd) (some file) } := by
  have hgrown : (growArray m.map fd)[sizeT fd]? = some none := by
    rw [growArray, if_pos hfd]
    have hlt : sizeT fd < (pushNulls m.map (sizeT fd)).length := by
      rw [length_pushNulls]
      omega
    rw [List.getElem?_eq_getElem hlt, Option.some.injEq]
    rw [← getElem?_pushNulls (n := sizeT fd), List.getElem?_eq_getElem hlt] at hnone
    exact hnone
  rw [put]
  simp only [hgrown]
  rw [growArray, if_pos hfd]

theorem getElem?_set_join {map : List (Option Description)} {i j : Nat} {o : Option Description}
    (hi : i < map.length) :
    ((map.set i o)[j]?).join = if j = i then o else (map[j]?).join := by
  by_cases hji : j = i
  · subst hji
    rw [List.getElem?_set_self hi, if_pos rfl]
    rfl
  · rw [List.getElem?_set_ne (Ne.symm hji), if_neg hji]

end Fmap

/-! ## Refinement -/

/-- The vector stands for the descriptions of the fds. -/
structure Represents (m : Fmap Description) (t : OpenFiles Description) : Prop where
  find : ∀ fd, IsInt fd → (m.map[sizeT fd]?).join = t.find fd
  bound : m.map.length = t.bound
  small : t.bound ≤ 2 ^ 31

namespace Represents

variable {m : Fmap Description} {t : OpenFiles Description} {fd : Int} {file : Description}

theorem empty : Represents (Fmap.empty : Fmap Description) OpenFiles.empty :=
  ⟨fun _ _ => rfl, rfl, Nat.zero_le _⟩

theorem put (h : Represents m t) (file : Description) (hint : IsInt fd) (hfd : 0 ≤ fd)
    (hfree : t.find fd = none) :
    ∃ m', m.put fd file = .ok m' ∧ Represents m' (t.apply (.put fd file)).2 := by
  have hnone : (m.map[sizeT fd]?).join = none := (h.find fd hint).trans hfree
  have hlt : sizeT fd < (Fmap.pushNulls m.map (sizeT fd)).length := by
    rw [Fmap.length_pushNulls]
    omega
  refine ⟨_, Fmap.put_eq hfd hnone, fun fd' hint' => ?_, ?_, ?_⟩
  · simp only [OpenFiles.apply]
    rw [Fmap.getElem?_set_join hlt, Fmap.getElem?_pushNulls, h.find fd' hint',
      Function.update_apply]
    by_cases heq : fd' = fd
    · rw [heq, if_pos rfl, if_pos rfl]
    · rw [if_neg heq, if_neg fun hsize => heq (sizeT_injective hint' hint hsize)]
  · simp only [OpenFiles.apply]
    rw [List.length_set, Fmap.length_pushNulls, h.bound]
  · have hsize := sizeT_of_nonneg hint hfd
    have hsmall := h.small
    obtain ⟨-, hless⟩ := hint
    simp only [OpenFiles.apply]
    omega

theorem erase (h : Represents m t) (hint : IsInt fd) :
    Represents (m.erase fd) (t.apply (.erase fd)).2 := by
  rw [Fmap.erase]
  split
  · rename_i hpast
    refine ⟨fun fd' hint' => ?_, h.bound, h.small⟩
    simp only [OpenFiles.apply]
    rw [h.find fd' hint', Function.update_apply]
    split
    · rename_i heq
      rw [heq, ← h.find fd hint, List.getElem?_eq_none hpast]
      rfl
    · rfl
  · rename_i hin
    refine ⟨fun fd' hint' => ?_, ?_, h.small⟩
    · simp only [OpenFiles.apply]
      rw [Fmap.getElem?_set_join (by omega), h.find fd' hint', Function.update_apply]
      by_cases heq : fd' = fd
      · rw [heq, if_pos rfl, if_pos rfl]
      · rw [if_neg heq, if_neg fun hsize => heq (sizeT_injective hint' hint hsize)]
    · exact (List.length_set).trans h.bound

theorem perform (h : Represents m t) {a : FmapOperation Description} (hok : t.Allows a) :
    ∃ m', m.perform a = .ok ((t.apply a).1, m') ∧ Represents m' (t.apply a).2 := by
  cases a with
  | get fd =>
    refine ⟨m, ?_, h⟩
    rw [Fmap.perform, Fmap.getUnlocked_eq hok (h.bound ▸ h.small), h.find fd hok]
    rfl
  | put fd file =>
    obtain ⟨m', hm', hR⟩ := h.put file hok.1 hok.2.1 hok.2.2
    refine ⟨m', ?_, hR⟩
    rw [Fmap.perform, hm']
    rfl
  | erase fd => exact ⟨m.erase fd, rfl, h.erase hok⟩
  | size =>
    refine ⟨m, ?_, h⟩
    rw [Fmap.perform, Fmap.size, h.bound]
    rfl

end Represents

/-! ## What is deleted -/

/-- The descriptions that were put and are in the vector or deleted. -/
def Fmap.all (m : Fmap Description) : List Description := m.map.reduceOption ++ m.deleted

theorem reduceOption_set {l : List (Option Description)} {i : Nat} {o : Option Description}
    (h : l[i]? = some o) (o' : Option Description) :
    (o'.toList ++ l.reduceOption).Perm (o.toList ++ (l.set i o').reduceOption) := by
  induction l generalizing i with
  | nil => cases h
  | cons x l ih =>
    have hcons : ∀ (y : Option Description) (k : List (Option Description)),
        (y :: k).reduceOption = y.toList ++ k.reduceOption := by
      intro y k
      rw [← List.singleton_append, List.reduceOption_append, List.reduceOption_singleton]
    cases i with
    | zero =>
      rw [List.getElem?_cons_zero, Option.some.injEq] at h
      subst h
      rw [List.set_cons_zero, hcons, hcons, ← List.append_assoc, ← List.append_assoc]
      exact List.perm_append_comm.append_right _
    | succ i =>
      rw [List.getElem?_cons_succ] at h
      rw [List.set_cons_succ, hcons, hcons]
      refine (List.perm_append_comm_assoc _ _ _).trans (((ih h).append_left x.toList).trans ?_)
      exact List.perm_append_comm_assoc _ _ _

namespace Fmap

variable {m m' : Fmap Description} {fd : Int} {file : Description}

theorem reduceOption_growArray (map : List (Option Description)) (fd : Int) :
    (growArray map fd).reduceOption = map.reduceOption := by
  rw [growArray]
  split
  · rw [pushNulls, List.reduceOption_append, List.reduceOption_replicate_none, List.append_nil]
  · rfl

theorem put_all (h : m.put fd file = .ok m') : m'.all.Perm (file :: m.all) := by
  rw [put] at h
  split at h
  · cases h
  · cases h
  · rename_i hslot
    cases h
    have hset := (reduceOption_set hslot (some file)).symm
    rw [reduceOption_growArray, Option.toList_none, List.nil_append, Option.toList_some,
      List.singleton_append] at hset
    exact hset.append_right m.deleted

theorem erase_all (m : Fmap Description) (fd : Int) : (m.erase fd).all.Perm m.all := by
  rw [erase]
  split
  · exact List.Perm.refl _
  · rename_i hin
    obtain ⟨o, ho⟩ : ∃ o, m.map[sizeT fd]? = some o := ⟨_, List.getElem?_eq_getElem (by omega)⟩
    have hset := reduceOption_set ho none
    rw [Option.toList_none, List.nil_append] at hset
    rw [ho, Option.join_some, all, all]
    refine List.Perm.trans ?_ (hset.symm.append_right m.deleted)
    dsimp only
    rw [List.append_assoc]
    exact (List.perm_append_comm.append_left _).trans (List.perm_append_comm_assoc _ _ _)

theorem perform_all {a : FmapOperation Description} {b : FmapAnswer Description}
    (h : m.perform a = .ok (b, m')) : m'.all.Perm (putFiles [a] ++ m.all) := by
  cases a with
  | put fd file =>
    rw [perform] at h
    cases hput : m.put fd file with
    | error e =>
      rw [hput] at h
      cases h
    | ok m₁ =>
      rw [hput] at h
      cases h
      exact put_all hput
  | erase fd =>
    cases h
    exact erase_all m fd
  | get fd =>
    cases h
    exact List.Perm.refl _
  | size =>
    cases h
    exact List.Perm.refl _

theorem putFiles_cons (a : FmapOperation Description) (as : List (FmapOperation Description)) :
    putFiles (a :: as) = putFiles [a] ++ putFiles as := by
  cases a <;> rfl

end Fmap

/-- Every description that was put is in the vector or was deleted, and once. -/
theorem perform_conserves {m m' : Fmap Description} {as : List (FmapOperation Description)}
    {bs : List (FmapAnswer Description)} (h : Lib.perform Fmap.perform m as = .ok (bs, m')) :
    m'.all.Perm (putFiles as ++ m.all) := by
  induction as generalizing m bs with
  | nil =>
    cases h
    exact List.Perm.refl _
  | cons a as ih =>
    rw [Lib.perform] at h
    cases hone : m.perform a with
    | error e =>
      rw [hone] at h
      cases h
    | ok x =>
      obtain ⟨b, m₁⟩ := x
      rw [hone, ok_bind] at h
      dsimp only at h
      cases hmany : Lib.perform Fmap.perform m₁ as with
      | error e =>
        rw [hmany] at h
        cases h
      | ok y =>
        rw [hmany] at h
        cases h
        have htail := ih hmany
        have hhead := Fmap.perform_all hone
        rw [Fmap.putFiles_cons, List.append_assoc]
        refine htail.trans ((hhead.append_left _).trans ?_)
        exact List.perm_append_comm_assoc _ _ _

/-- The map answers like a partial function on the fds, and as long as an fd is put only when
it is not open no assertion fails and no index is out of range. Its size is one more than the
largest fd that was put. When the destructor has run, every description that was put has been
deleted, and once. -/
theorem fmap_refines {as : List (FmapOperation Description)}
    (hok : Allowed OpenFiles.apply OpenFiles.Allows OpenFiles.empty as) :
    ∃ m, Lib.perform Fmap.perform Fmap.empty as =
        .ok ((answers OpenFiles.apply OpenFiles.empty as).1, m) ∧
      m.size = (answers OpenFiles.apply OpenFiles.empty as).2.bound ∧
      m.destroy.deleted.Perm (putFiles as) := by
  have hstep : ∀ (m : Fmap Description) t a, Represents m t → OpenFiles.Allows t a →
      ∃ m', m.perform a = .ok ((OpenFiles.apply t a).1, m') ∧
        Represents m' (OpenFiles.apply t a).2 := fun m t a hR hok => hR.perform hok
  obtain ⟨m, hm, hR⟩ := perform_of_simulation hstep Represents.empty hok
  refine ⟨m, hm, hR.bound, ?_⟩
  have hall := perform_conserves hm
  rw [Fmap.all, Fmap.all] at hall
  exact List.perm_append_comm.trans (hall.trans (List.append_nil _ ▸ List.Perm.refl _))

/-- Fds 5 and 2 are put, 5 is erased twice and put again, and the application asks for others. -/
def reopened : List (FmapOperation Char) :=
  [.put 5 'a', .put 2 'b', .get 5, .erase 5, .erase 5, .get 5, .get (-1), .erase (-1), .get 9,
    .put 5 'c', .size]

theorem fmap_refines_reopened :
    ∃ m, Lib.perform Fmap.perform Fmap.empty reopened =
        .ok ((answers OpenFiles.apply OpenFiles.empty reopened).1, m) ∧
      m.size = 6 ∧ m.destroy.deleted.Perm ['a', 'b', 'c'] := by
  have hok : Allowed OpenFiles.apply OpenFiles.Allows OpenFiles.empty reopened := by
    simp [Allowed, OpenFiles.Allows, OpenFiles.apply, OpenFiles.empty, IsInt, reopened]
  exact fmap_refines hok

end TokuBackup
