import Mathlib.Data.List.Perm.Subperm
import Mathlib.Data.List.Nodup

/-!
# Worklists over forests

A worklist holds what was found and not handled; handling one node takes it off and puts
its children on. In a forest, where a node is the child of at most one node and a root of
none, every node that can be reached is handled, and is handled once.

* `Reach` is what can be reached from the roots.
* `Explored` relates what was handled to what is pending. The order of the pending nodes
  does not matter.
* `Explored.pop` is the step; `Explored.complete` reads off what an empty worklist means.
-/

namespace TokuBackup.Lib

variable {α : Type} {roots : List α} {children : α → List α}

/-- What some number of steps from a root to a child leads to. -/
inductive Reach (roots : List α) (children : α → List α) : α → Prop where
  | root {a : α} (h : a ∈ roots) : Reach roots children a
  | child {a b : α} (h : Reach roots children a) (hb : b ∈ children a) : Reach roots children b

/-- Each node is a root or the child of one node, and not both. -/
structure IsForest (roots : List α) (children : α → List α) : Prop where
  roots_nodup : roots.Nodup
  children_nodup : ∀ a, (children a).Nodup
  parent_unique : ∀ a a' b, b ∈ children a → b ∈ children a' → a = a'
  root_no_parent : ∀ a b, b ∈ children a → b ∉ roots

/-- The nodes handled so far and the ones on the worklist. -/
structure Explored (roots : List α) (children : α → List α) (seen pending : List α) : Prop where
  nodup : (seen ++ pending).Nodup
  reach : ∀ a ∈ seen ++ pending, Reach roots children a
  roots_found : ∀ a ∈ roots, a ∈ seen ++ pending
  /-- The children of a handled node were found. -/
  children_found : ∀ a ∈ seen, ∀ b ∈ children a, b ∈ seen ++ pending
  /-- What was found is a root or the child of a handled node. -/
  parent : ∀ b ∈ seen ++ pending, b ∈ roots ∨ ∃ a ∈ seen, b ∈ children a

namespace Explored

variable {seen pending pending' : List α} {a b : α}

theorem start (hF : IsForest roots children) : Explored roots children [] roots where
  nodup := hF.roots_nodup
  reach _ ha := Reach.root ha
  roots_found _ ha := ha
  children_found _ ha := absurd ha List.not_mem_nil
  parent _ hb := Or.inl hb

theorem perm (h : Explored roots children seen pending) (hp : pending.Perm pending') :
    Explored roots children seen pending' := by
  have hall : (seen ++ pending).Perm (seen ++ pending') := hp.append_left seen
  exact {
    nodup := hall.nodup_iff.mp h.nodup
    reach := fun a ha => h.reach a (hall.mem_iff.mpr ha)
    roots_found := fun a ha => hall.mem_iff.mp (h.roots_found a ha)
    children_found := fun a ha b hb => hall.mem_iff.mp (h.children_found a ha b hb)
    parent := fun b hb => h.parent b (hall.mem_iff.mpr hb) }

/-- A child of a node that was not handled has not been found. -/
theorem child_new (hF : IsForest roots children) (h : Explored roots children seen pending)
    (ha : a ∉ seen) (hb : b ∈ children a) : b ∉ seen ++ pending := by
  intro hfound
  rcases h.parent b hfound with hroot | ⟨a', ha', hb'⟩
  · exact hF.root_no_parent a b hb hroot
  · rw [hF.parent_unique a a' b hb hb'] at ha
    exact ha ha'

theorem head_not_seen (h : Explored roots children seen (a :: pending)) : a ∉ seen := by
  intro ha
  exact (List.nodup_append.mp h.nodup).2.2 a ha a List.mem_cons_self rfl

/-- Handle one node: it leaves the worklist and its children come on. -/
theorem pop (hF : IsForest roots children) (h : Explored roots children seen (a :: pending)) :
    Explored roots children (seen ++ [a]) (pending ++ children a) := by
  have hmem : ∀ b, b ∈ seen ++ [a] ++ (pending ++ children a) ↔
      b ∈ seen ++ a :: pending ∨ b ∈ children a := by
    intro b
    simp only [List.mem_append, List.mem_cons, List.not_mem_nil, or_false]
    tauto
  have hnew : ∀ b ∈ children a, b ∉ seen ++ a :: pending :=
    fun b hb => h.child_new hF h.head_not_seen hb
  constructor
  case nodup =>
    have hlist : seen ++ [a] ++ (pending ++ children a) = seen ++ a :: pending ++ children a := by
      simp only [List.append_assoc, List.cons_append, List.nil_append]
    rw [hlist, List.nodup_append]
    refine ⟨h.nodup, hF.children_nodup a, ?_⟩
    rintro b hb c hc rfl
    exact hnew b hc hb
  case reach =>
    intro b hb
    rcases (hmem b).mp hb with hb | hb
    · exact h.reach b hb
    · exact Reach.child (h.reach a (List.mem_append_right _ List.mem_cons_self)) hb
  case roots_found => exact fun b hb => (hmem b).mpr (Or.inl (h.roots_found b hb))
  case children_found =>
    intro c hc b hb
    rcases List.mem_append.mp hc with hc | hc
    · exact (hmem b).mpr (Or.inl (h.children_found c hc b hb))
    · rw [List.mem_singleton] at hc
      subst hc
      exact (hmem b).mpr (Or.inr hb)
  case parent =>
    intro b hb
    rcases (hmem b).mp hb with hb | hb
    · rcases h.parent b hb with hroot | ⟨c, hc, hbc⟩
      · exact Or.inl hroot
      · exact Or.inr ⟨c, List.mem_append_left _ hc, hbc⟩
    · exact Or.inr ⟨a, List.mem_append_right _ List.mem_cons_self, hb⟩

/-- With nothing left, the handled nodes are the reachable ones. -/
theorem complete (h : Explored roots children seen []) :
    seen.Nodup ∧ ∀ a, a ∈ seen ↔ Reach roots children a := by
  have hnil : seen ++ [] = seen := List.append_nil seen
  refine ⟨hnil ▸ h.nodup, fun a => ⟨fun ha => h.reach a (hnil.symm ▸ ha), ?_⟩⟩
  intro ha
  induction ha with
  | root hroot => exact hnil ▸ h.roots_found _ hroot
  | child _ hb ih => exact hnil ▸ h.children_found _ ih _ hb

/-- No more is handled than can be reached. -/
theorem length_le (h : Explored roots children seen pending) {all : List α}
    (hall : ∀ a, Reach roots children a → a ∈ all) : seen.length + pending.length ≤ all.length := by
  rw [← List.length_append]
  exact (h.nodup.subperm fun a ha => hall a (h.reach a ha)).length_le

end Explored

end TokuBackup.Lib
