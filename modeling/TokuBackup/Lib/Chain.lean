import Mathlib.Logic.Function.Basic
import Mathlib.Data.List.Nodup

/-!
# Intrusive singly linked lists

A list whose nodes carry their own link: `next` maps a node to its successor, and a head
is a node or `none`. Heads and links are shared state, so that setting one link can change
several lists; the lemmas below say when it does not.

* `IsChain next head l` says that the nodes from `head` on are `l`.
* `Reaches next head x` is membership without naming the list.
* `scan` is the search loop that remembers the predecessor. It takes fuel because a list
  of nodes may be cyclic; on a chain, fuel above its length is enough.
-/

namespace TokuBackup.Lib

variable {ι : Type} {next next' : ι → Option ι} {head : Option ι} {x y : ι} {l l₁ l₂ : List ι}

/-- The nodes from `head` on are `l`, and the last one has no successor. -/
def IsChain (next : ι → Option ι) : Option ι → List ι → Prop
  | head, [] => head = none
  | head, x :: l => head = some x ∧ IsChain next (next x) l

/-- Some number of links leads from `head` to the node. -/
inductive Reaches (next : ι → Option ι) : Option ι → ι → Prop where
  | head (x : ι) : Reaches next (some x) x
  | tail (x y : ι) : Reaches next (next x) y → Reaches next (some x) y

/-! ## Chains -/

theorem IsChain.reaches_iff (h : IsChain next head l) : Reaches next head x ↔ x ∈ l := by
  induction l generalizing head with
  | nil =>
    cases h
    constructor
    · intro hr
      cases hr
    · intro hx
      cases hx
  | cons y l ih =>
    obtain ⟨rfl, hl⟩ := h
    rw [List.mem_cons, ← ih hl]
    constructor
    · intro hr
      cases hr with
      | head => exact Or.inl rfl
      | tail _ _ hr => exact Or.inr hr
    · rintro (rfl | hr)
      · exact Reaches.head x
      · exact Reaches.tail y x hr

theorem IsChain.unique (h₁ : IsChain next head l₁) (h₂ : IsChain next head l₂) : l₁ = l₂ := by
  induction l₁ generalizing head l₂ with
  | nil =>
    cases h₁
    cases l₂ with
    | nil => rfl
    | cons y l₂ => cases h₂.1
  | cons x l₁ ih =>
    obtain ⟨rfl, hl₁⟩ := h₁
    cases l₂ with
    | nil => cases h₂
    | cons y l₂ =>
      obtain ⟨hxy, hl₂⟩ := h₂
      cases hxy
      rw [ih hl₁ hl₂]

theorem IsChain.append (h : IsChain next head (l₁ ++ x :: l₂)) : IsChain next (next x) l₂ := by
  induction l₁ generalizing head with
  | nil => exact h.2
  | cons y l₁ ih => exact ih h.2

/-- No node occurs twice: from the second occurrence on the chain would go on as from the
first. -/
theorem IsChain.nodup (h : IsChain next head l) : l.Nodup := by
  induction l generalizing head with
  | nil => exact List.nodup_nil
  | cons x l ih =>
    rw [List.nodup_cons]
    refine ⟨fun hx => ?_, ih h.2⟩
    obtain ⟨l₁, l₂, rfl⟩ := List.append_of_mem hx
    have heq := h.2.unique (IsChain.append h.2)
    have hlen := congrArg List.length heq
    rw [List.length_append, List.length_cons] at hlen
    omega

theorem IsChain.congr (h : IsChain next head l) (hnext : ∀ x ∈ l, next' x = next x) :
    IsChain next' head l := by
  induction l generalizing head with
  | nil => exact h
  | cons y l ih =>
    refine ⟨h.1, ?_⟩
    rw [hnext y List.mem_cons_self]
    exact ih h.2 fun x hx => hnext x (List.mem_cons_of_mem y hx)

variable [DecidableEq ι]

/-- A link of a node outside the chain may change. -/
theorem IsChain.update (h : IsChain next head l) (hx : x ∉ l) (o : Option ι) :
    IsChain (Function.update next x o) head l := by
  refine h.congr fun y hy => Function.update_of_ne ?_ _ _
  rintro rfl
  exact hx hy

/-- A node outside the chain becomes its head. -/
theorem IsChain.push (h : IsChain next head l) (hx : x ∉ l) :
    IsChain (Function.update next x head) (some x) (x :: l) :=
  ⟨rfl, by rw [Function.update_self]; exact h.update hx head⟩

/-- The successor of `x` is taken out. -/
theorem IsChain.unlink (h : IsChain next head (l₁ ++ x :: y :: l₂)) :
    IsChain (Function.update next x (next y)) head (l₁ ++ x :: l₂) := by
  have hnodup := h.nodup
  induction l₁ generalizing head with
  | nil =>
    obtain ⟨rfl, -, hl₂⟩ := h
    refine ⟨rfl, ?_⟩
    rw [Function.update_self]
    rw [List.nil_append, List.nodup_cons] at hnodup
    exact hl₂.update (fun hx => hnodup.1 (List.mem_cons_of_mem y hx)) _
  | cons z l₁ ih =>
    rw [List.cons_append, List.nodup_cons] at hnodup
    have hzx : z ≠ x := by
      rintro rfl
      exact hnodup.1 (List.mem_append_right l₁ List.mem_cons_self)
    refine ⟨h.1, ?_⟩
    rw [Function.update_of_ne hzx]
    exact ih h.2 hnodup.2

/-! ## The search loop -/

/-- Follow the links from `cur` to the first node that meets `test`, and return it with
its predecessor. `none` when the test is undefined on a node or the fuel runs out. -/
def scan (next : ι → Option ι) (test : ι → Option Bool) :
    Nat → Option ι → Option ι → Option (Option (Option ι × ι))
  | 0, _, _ => none
  | _ + 1, _, none => some none
  | fuel + 1, previous, some current =>
    match test current with
    | none => none
    | some true => some (some (previous, current))
    | some false => scan next test fuel (some current) (next current)

omit [DecidableEq ι] in
theorem scan_none {test : ι → Option Bool} {fuel : Nat} {previous : Option ι}
    (h : IsChain next head l) (ht : ∀ x ∈ l, test x = some false) (hf : l.length < fuel) :
    scan next test fuel previous head = some none := by
  induction l generalizing head fuel previous with
  | nil =>
    cases h
    cases fuel with
    | zero => cases hf
    | succ fuel => rfl
  | cons x l ih =>
    obtain ⟨rfl, hl⟩ := h
    cases fuel with
    | zero => cases hf
    | succ fuel =>
      rw [scan, ht x List.mem_cons_self]
      exact ih hl (fun y hy => ht y (List.mem_cons_of_mem x hy)) (Nat.lt_of_succ_lt_succ hf)

omit [DecidableEq ι] in
theorem scan_some {test : ι → Option Bool} {fuel : Nat} {previous : Option ι}
    (h : IsChain next head (l₁ ++ x :: l₂)) (ht : ∀ y ∈ l₁, test y = some false)
    (hx : test x = some true) (hf : l₁.length < fuel) :
    scan next test fuel previous head = some (some (l₁.getLast?.or previous, x)) := by
  induction l₁ generalizing head fuel previous with
  | nil =>
    obtain ⟨rfl, -⟩ := h
    cases fuel with
    | zero => cases hf
    | succ fuel =>
      rw [scan, hx]
      rfl
  | cons y l₁ ih =>
    obtain ⟨rfl, hl⟩ := h
    cases fuel with
    | zero => cases hf
    | succ fuel =>
      rw [scan, ht y List.mem_cons_self]
      refine (ih hl (fun z hz => ht z (List.mem_cons_of_mem y hz))
        (Nat.lt_of_succ_lt_succ hf)).trans ?_
      rw [List.getLast?_cons]
      cases l₁.getLast? <;> rfl

omit [DecidableEq ι] in
/-- A test that is defined on every node of a chain fails on all of them, or there is a first
node that meets it. -/
theorem first_or_none {test : ι → Option Bool} (htest : ∀ x ∈ l, ∃ b, test x = some b) :
    (∀ x ∈ l, test x = some false) ∨
      ∃ l₁ x l₂, l = l₁ ++ x :: l₂ ∧ (∀ y ∈ l₁, test y = some false) ∧ test x = some true := by
  induction l with
  | nil => exact Or.inl fun x hx => absurd hx List.not_mem_nil
  | cons x l ih =>
    obtain ⟨b, hb⟩ := htest x List.mem_cons_self
    cases b with
    | true => exact Or.inr ⟨[], x, l, rfl, fun y hy => absurd hy List.not_mem_nil, hb⟩
    | false =>
      obtain hall | ⟨l₁, y, l₂, rfl, hbefore, hy⟩ :=
        ih fun y hy => htest y (List.mem_cons_of_mem x hy)
      · exact Or.inl (List.forall_mem_cons.mpr ⟨hb, hall⟩)
      · exact Or.inr ⟨x :: l₁, y, l₂, rfl, List.forall_mem_cons.mpr ⟨hb, hbefore⟩, hy⟩

omit [DecidableEq ι] in
/-- What a search returns meets the test, on any links. -/
theorem test_of_scan {test : ι → Option Bool} {fuel : Nat} {previous p : Option ι}
    (h : scan next test fuel previous head = some (some (p, x))) : test x = some true := by
  induction fuel generalizing previous head with
  | zero => cases h
  | succ fuel ih =>
    cases head with
    | none => cases h
    | some y =>
      rw [scan] at h
      split at h
      · cases h
      · rename_i hy
        cases h
        exact hy
      · exact ih h

end TokuBackup.Lib
