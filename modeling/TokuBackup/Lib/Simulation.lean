import TokuBackup.Lib.Result

/-!
# Refinement of a specification with answers

A specification is a machine whose operations always succeed, `spec : τ → α → β × τ`: an
operation gives an answer and the next state. An implementation is one whose operations can
fail. When a relation between their states is kept by every allowed operation, and the
answers of the operation are the same, the implementation does not fail in any allowed
sequence of operations and gives the answers of the specification.
-/

namespace TokuBackup.Lib

variable {σ τ α β ε : Type}

/-- The answers of the specification to a sequence of operations, and where it ends. -/
def answers (spec : τ → α → β × τ) : τ → List α → List β × τ
  | t, [] => ([], t)
  | t, a :: as => ((spec t a).1 :: (answers spec (spec t a).2 as).1,
      (answers spec (spec t a).2 as).2)

/-- The implementation does the operations in order. -/
def perform (impl : σ → α → Except ε (β × σ)) : σ → List α → Except ε (List β × σ)
  | s, [] => .ok ([], s)
  | s, a :: as => do
    let (b, s) ← impl s a
    let (bs, s) ← perform impl s as
    return (b :: bs, s)

/-- Every operation of the sequence is allowed where the specification is then. -/
def Allowed (spec : τ → α → β × τ) (ok : τ → α → Prop) : τ → List α → Prop
  | _, [] => True
  | t, a :: as => ok t a ∧ Allowed spec ok (spec t a).2 as

instance decidableAllowed (spec : τ → α → β × τ) (ok : τ → α → Prop)
    [∀ t a, Decidable (ok t a)] : ∀ t as, Decidable (Allowed spec ok t as)
  | _, [] => isTrue trivial
  | t, a :: as =>
    have := decidableAllowed spec ok (spec t a).2 as
    inferInstanceAs (Decidable (ok t a ∧ Allowed spec ok (spec t a).2 as))

/-- The rule of refinement: related states answer alike, as long as the operations are
allowed. -/
theorem perform_of_simulation {spec : τ → α → β × τ} {impl : σ → α → Except ε (β × σ)}
    {ok : τ → α → Prop} {R : σ → τ → Prop}
    (hstep : ∀ s t a, R s t → ok t a →
      ∃ s', impl s a = .ok ((spec t a).1, s') ∧ R s' (spec t a).2)
    {s : σ} {t : τ} {as : List α} (hR : R s t) (hok : Allowed spec ok t as) :
    ∃ s', perform impl s as = .ok ((answers spec t as).1, s') ∧ R s' (answers spec t as).2 := by
  induction as generalizing s t with
  | nil => exact ⟨s, rfl, hR⟩
  | cons a as ih =>
    obtain ⟨s₁, hone, hR₁⟩ := hstep s t a hR hok.1
    obtain ⟨s', hmany, hR'⟩ := ih hR₁ hok.2
    refine ⟨s', ?_, hR'⟩
    rw [perform, hone, ok_bind]
    simp only [hmany, ok_bind]
    rfl

end TokuBackup.Lib
