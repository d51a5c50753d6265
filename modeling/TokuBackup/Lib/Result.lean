import Mathlib.Tactic.Common

/-!
# Calculations that can fail

`Except` with the few rules that proofs about `do` blocks need: how a bind succeeds, and
`demand`, which turns a missing value into a failure.
-/

namespace TokuBackup.Lib

variable {ε α β : Type}

theorem bind_eq_ok {x : Except ε α} {f : α → Except ε β} {b : β} :
    (x >>= f) = .ok b ↔ ∃ a, x = .ok a ∧ f a = .ok b := by
  cases x with
  | error e => simp [bind, Except.bind]
  | ok a => simp [bind, Except.bind]

@[simp] theorem ok_bind (a : α) (f : α → Except ε β) : ((Except.ok a : Except ε α) >>= f) = f a :=
  rfl

/-- The value, or the failure `e` when there is none. -/
def demand (o : Option α) (e : ε) : Except ε α :=
  match o with
  | some a => .ok a
  | none => .error e

@[simp] theorem demand_some (a : α) (e : ε) : demand (some a) e = .ok a := rfl

theorem demand_eq_ok {o : Option α} {e : ε} {a : α} : demand o e = .ok a ↔ o = some a := by
  cases o with
  | none => simp [demand]
  | some b => simp [demand]

/-! ## Postconditions

`Yields E P x`: a result of `x` satisfies `P`, and a failure satisfies `E`. -/

def Yields (E : ε → Prop) (P : α → Prop) (x : Except ε α) : Prop :=
  match x with
  | .ok a => P a
  | .error e => E e

variable {E : ε → Prop} {P Q : α → Prop} {R : β → Prop}

theorem Yields.ok {x : Except ε α} {a : α} (h : Yields E P x) (ha : x = .ok a) : P a := by
  subst ha
  exact h

theorem yields_of_ok {x : Except ε α} {a : α} (ha : x = .ok a) (hP : P a) : Yields E P x := by
  subst ha
  exact hP

theorem yields_bind {x : Except ε α} {f : α → Except ε β} (hx : Yields E P x)
    (hf : ∀ a, P a → Yields E R (f a)) : Yields E R (x >>= f) := by
  cases x with
  | error e => exact hx
  | ok a => exact hf a hx

theorem yields_demand {o : Option α} {e : ε} (he : E e) :
    Yields E (fun a => o = some a) (demand o e) := by
  cases o with
  | none => exact he
  | some a => rfl

theorem yields_mono {x : Except ε α} (hx : Yields E P x) (h : ∀ a, P a → Q a) : Yields E Q x := by
  cases x with
  | error e => exact hx
  | ok a => exact h a hx

end TokuBackup.Lib
