import TokuBackup.Lib.Simulation

/-!
# Amortised cost

An operation costs something, and its callers pay for it: `credit` is what an operation pays.
What is paid too much is saved up in the state, where a `potential` counts it. When every
allowed operation can be paid, a whole sequence of operations is paid by its credits, however
much a single one of them costs.
-/

namespace TokuBackup.Lib

variable {σ τ α β ε : Type}

/-- The cost of the operations, up to the first that fails. -/
def totalCost (impl : σ → α → Except ε (β × σ)) (cost : σ → α → Nat) : σ → List α → Nat
  | _, [] => 0
  | s, a :: as =>
    cost s a + match impl s a with
      | .ok (_, s) => totalCost impl cost s as
      | .error _ => 0

def totalCredit (credit : α → Nat) : List α → Nat
  | [] => 0
  | a :: as => credit a + totalCredit credit as

/-- The potential method, for an implementation that refines a specification. -/
theorem totalCost_le {spec : τ → α → β × τ} {impl : σ → α → Except ε (β × σ)}
    {cost : σ → α → Nat} {credit : α → Nat} {ok : τ → α → Prop} (potential : σ → Nat)
    (R : σ → τ → Prop)
    (hstep : ∀ s t a, R s t → ok t a → ∃ b s', impl s a = .ok (b, s') ∧ R s' (spec t a).2 ∧
      cost s a + potential s' ≤ credit a + potential s)
    {s : σ} {t : τ} {as : List α} (hR : R s t) (hok : Allowed spec ok t as) :
    totalCost impl cost s as ≤ totalCredit credit as + potential s := by
  induction as generalizing s t with
  | nil => exact Nat.zero_le _
  | cons a as ih =>
    obtain ⟨b, s', hone, hR', hpaid⟩ := hstep s t a hR hok.1
    have hrest := ih hR' hok.2
    rw [totalCost, hone]
    rw [totalCredit]
    dsimp only
    omega

end TokuBackup.Lib
