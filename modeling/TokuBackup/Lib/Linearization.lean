import TokuBackup.Lib.Machine

/-!
# Calls that take effect at one step

A call of a concurrent machine begins at one step and takes effect, at once, at a later one.
When every step of the machine either leaves an abstract machine alone or is one step of it, a
run does what some order of the calls does there. In that order a thread's calls stand as it
has made them, and each call stands between its beginning and its end, since a thread has at
most the calls in `pending` that have begun and not taken effect.
-/

namespace TokuBackup.Lib

variable {σ τ α β ι : Type} [DecidableEq ι]

/-- Which calls the actions begin, and which calls have begun and not taken effect. -/
structure Linearization (σ τ α β ι : Type) where
  abs : σ → τ
  thread : β → ι
  begins : α → Option β
  pending : σ → ι → List β

namespace Linearization

variable (L : Linearization σ τ α β ι)

/-- The calls of thread `p`, in order. -/
def calls (p : ι) (bs : List β) : List β := bs.filter fun b => L.thread b = p

/-- A step takes at most one call into effect. -/
def Effect (step' : τ → β → Option τ) (s : σ) (a : α) (s' : σ) : Prop :=
  (L.abs s' = L.abs s ∧
    ∀ p, L.pending s p ++ L.calls p (L.begins a).toList = L.pending s' p) ∨
  ∃ b, step' (L.abs s) b = some (L.abs s') ∧
    ∀ p, L.pending s p ++ L.calls p (L.begins a).toList = L.calls p [b] ++ L.pending s' p

theorem calls_append (p : ι) (bs cs : List β) :
    L.calls p (bs ++ cs) = L.calls p bs ++ L.calls p cs := List.filter_append bs cs

/-- The calls of a run take effect in an order that the abstract machine allows, and a
thread's calls in the order in which they begin. -/
theorem run_effect {step : σ → α → Option σ} {step' : τ → β → Option τ} {ok : σ → α → Prop}
    {Inv : σ → Prop}
    (hstep : ∀ s a s', Inv s → ok s a → step s a = some s' → Inv s' ∧ L.Effect step' s a s')
    {s t : σ} {as : List α} (hs : Inv s) (hok : RunOk step ok s as)
    (hrun : run step s as = some t) :
    ∃ bs, run step' (L.abs s) bs = some (L.abs t) ∧
      ∀ p, L.pending s p ++ L.calls p (as.filterMap L.begins) = L.calls p bs ++ L.pending t p := by
  induction as generalizing s with
  | nil =>
    cases hrun
    exact ⟨[], rfl, fun p => List.append_nil _⟩
  | cons a as ih =>
    obtain ⟨s', hs', hrest⟩ := run_cons_some.mp hrun
    obtain ⟨hinv, heffect⟩ := hstep s a s' hs hok.1 hs'
    obtain ⟨bs, hbs, hcalls⟩ := ih hinv (hok.2 s' hs') hrest
    have hsplit : ∀ p, L.calls p ((a :: as).filterMap L.begins) =
        L.calls p (L.begins a).toList ++ L.calls p (as.filterMap L.begins) := by
      intro p
      rw [← calls_append]
      cases ha : L.begins a with
      | none => rw [List.filterMap_cons_none ha, Option.toList_none, List.nil_append]
      | some b => rw [List.filterMap_cons_some ha, Option.toList_some, List.singleton_append]
    rcases heffect with ⟨hsame, hpending⟩ | ⟨b, hb, hpending⟩
    · refine ⟨bs, hsame ▸ hbs, fun p => ?_⟩
      rw [hsplit, ← List.append_assoc, hpending, hcalls]
    · refine ⟨b :: bs, run_cons_some.mpr ⟨_, hb, hbs⟩, fun p => ?_⟩
      rw [hsplit, ← List.append_assoc, hpending, List.append_assoc, hcalls, ← List.append_assoc,
        ← calls_append, List.singleton_append]

end Linearization

end TokuBackup.Lib
