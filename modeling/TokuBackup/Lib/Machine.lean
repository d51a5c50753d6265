import Mathlib.Data.Finset.Card

/-!
# Machines with partial steps

A machine is a step function `σ → α → Option σ`: an action either is impossible in a
state or leads to one next state. Everything nondeterministic (the scheduler, the outcome
of a system call) is part of the action, so that a finite run is a list of actions and a
concrete run can be evaluated.

* `run` executes a list of actions.
* `RunOk ok` says that every step of a run meets a condition on the state before the step
  and the action.
* `run_invariant` is the induction principle over runs, `run_project` the rule for a machine
  with finer steps, `run_erase` the rule for removing the steps of a bystander from a run.
-/

namespace TokuBackup.Lib

variable {σ α : Type}

/-- Execute the actions in order; `none` when one of them is impossible. -/
def run (step : σ → α → Option σ) : σ → List α → Option σ
  | s, [] => some s
  | s, a :: as => (step s a).bind fun s' => run step s' as

/-- Every step of the run meets `ok`, a condition on the state before it. -/
def RunOk (step : σ → α → Option σ) (ok : σ → α → Prop) : σ → List α → Prop
  | _, [] => True
  | s, a :: as => ok s a ∧ ∀ s', step s a = some s' → RunOk step ok s' as

/-- Whether a concrete run meets a decidable condition can be computed. -/
instance decidableRunOk (step : σ → α → Option σ) (ok : σ → α → Prop)
    [∀ s a, Decidable (ok s a)] : ∀ s as, Decidable (RunOk step ok s as)
  | _, [] => isTrue trivial
  | s, a :: as =>
    match h : step s a with
    | none => decidable_of_iff (ok s a) ⟨fun ha => ⟨ha, by simp [h]⟩, fun hr => hr.1⟩
    | some s' =>
      have := decidableRunOk step ok s' as
      decidable_of_iff (ok s a ∧ RunOk step ok s' as)
        ⟨fun ⟨ha, hr⟩ => ⟨ha, fun t ht => by rw [h] at ht; cases ht; exact hr⟩,
          fun hr => ⟨hr.1, hr.2 s' h⟩⟩

section

variable {step : σ → α → Option σ}

@[simp] theorem run_nil (s : σ) : run step s [] = some s := rfl

theorem run_cons {s : σ} {a : α} {as : List α} :
    run step s (a :: as) = (step s a).bind fun s' => run step s' as := rfl

theorem run_cons_some {s t : σ} {a : α} {as : List α} :
    run step s (a :: as) = some t ↔ ∃ s', step s a = some s' ∧ run step s' as = some t := by
  rw [run_cons, Option.bind_eq_some_iff]

/-- A run goes on where another one has ended. -/
theorem run_trans {s t u : σ} {as bs : List α} (hs : run step s as = some t)
    (ht : run step t bs = some u) : run step s (as ++ bs) = some u := by
  induction as generalizing s with
  | nil =>
    cases hs
    exact ht
  | cons a as ih =>
    obtain ⟨s', hs', hrest⟩ := run_cons_some.mp hs
    exact run_cons_some.mpr ⟨s', hs', ih hrest⟩

theorem runOk_append {ok : σ → α → Prop} {s : σ} {as bs : List α} :
    RunOk step ok s (as ++ bs) ↔
      RunOk step ok s as ∧ ∀ t, run step s as = some t → RunOk step ok t bs := by
  induction as generalizing s with
  | nil => simp [RunOk]
  | cons a as ih =>
    simp only [List.cons_append, RunOk, ih, run_cons_some]
    constructor
    · rintro ⟨ha, hrest⟩
      exact ⟨⟨ha, fun s' hs' => (hrest s' hs').1⟩,
        fun t ⟨s', hs', ht⟩ => (hrest s' hs').2 t ht⟩
    · rintro ⟨⟨ha, has⟩, hbs⟩
      exact ⟨ha, fun s' hs' => ⟨has s' hs', fun t ht => hbs t ⟨s', hs', ht⟩⟩⟩

/-- Actions that meet the condition in every state. -/
theorem runOk_of_mem {ok : σ → α → Prop} {s : σ} {as : List α} (h : ∀ a ∈ as, ∀ s, ok s a) :
    RunOk step ok s as := by
  induction as generalizing s with
  | nil => trivial
  | cons a as ih =>
    refine ⟨h a List.mem_cons_self s, fun s' _ => ih fun a' ha' => ?_⟩
    exact h a' (List.mem_cons_of_mem a ha')

/-- The rule of invariants: what holds at the start and is preserved by every step that
meets `ok` holds at the end of every run whose steps all meet `ok`. -/
theorem run_invariant {ok : σ → α → Prop} {Inv : σ → Prop}
    (hstep : ∀ s a s', Inv s → ok s a → step s a = some s' → Inv s')
    {s t : σ} {as : List α} (hs : Inv s) (hok : RunOk step ok s as)
    (hrun : run step s as = some t) : Inv t := by
  induction as generalizing s with
  | nil =>
    cases hrun
    exact hs
  | cons a as ih =>
    obtain ⟨s', hs', hrest⟩ := run_cons_some.mp hrun
    exact ih (hstep s a s' hs hok.1 hs') (hok.2 s' hs') hrest

/-- A condition may be replaced by one that follows from it in the states of the run. -/
theorem runOk_mono {ok ok' : σ → α → Prop} {Inv : σ → Prop}
    (hstep : ∀ s a s', Inv s → ok s a → step s a = some s' → Inv s')
    (himp : ∀ s a, Inv s → ok s a → ok' s a) {s : σ} {as : List α} (hs : Inv s)
    (hok : RunOk step ok s as) : RunOk step ok' s as := by
  induction as generalizing s with
  | nil => trivial
  | cons a as ih =>
    refine ⟨himp s a hs hok.1, fun s' hs' => ?_⟩
    exact ih (hstep s a s' hs hok.1 hs') (hok.2 s' hs')

theorem runOk_congr {ok ok' : σ → α → Prop} (h : ∀ s a, ok s a ↔ ok' s a) {s : σ} {as : List α} :
    RunOk step ok s as ↔ RunOk step ok' s as := by
  have heq : ok = ok' := by
    funext s a
    exact propext (h s a)
  rw [heq]

theorem RunOk.and {ok ok' : σ → α → Prop} {s : σ} {as : List α} (hok : RunOk step ok s as)
    (hok' : RunOk step ok' s as) : RunOk step (fun s a => ok s a ∧ ok' s a) s as := by
  induction as generalizing s with
  | nil => trivial
  | cons a as ih =>
    exact ⟨⟨hok.1, hok'.1⟩, fun s' hs' => ih (hok.2 s' hs') (hok'.2 s' hs')⟩

theorem RunOk.imp {ok ok' : σ → α → Prop} (himp : ∀ s a, ok s a → ok' s a) {s : σ} {as : List α}
    (hok : RunOk step ok s as) : RunOk step ok' s as := by
  induction as generalizing s with
  | nil => trivial
  | cons a as ih => exact ⟨himp s a hok.1, fun s' hs' => ih (hok.2 s' hs')⟩

/-- The rule of termination: when every step makes a measure smaller, no run is longer than
the measure at its start. -/
theorem run_length_le {ok : σ → α → Prop} {Inv : σ → Prop} {measure : σ → Nat}
    (hstep : ∀ s a s', Inv s → ok s a → step s a = some s' → Inv s' ∧ measure s' < measure s)
    {s t : σ} {as : List α} (hs : Inv s) (hok : RunOk step ok s as)
    (hrun : run step s as = some t) : as.length ≤ measure s := by
  induction as generalizing s with
  | nil => exact Nat.zero_le _
  | cons a as ih =>
    obtain ⟨s', hs', hrest⟩ := run_cons_some.mp hrun
    obtain ⟨hinv, hless⟩ := hstep s a s' hs hok.1 hs'
    have hlen := ih hinv (hok.2 s' hs') hrest
    rw [List.length_cons]
    omega

/-- A machine with finer steps: when each of its steps is a step of another machine, or
nothing there, its runs are runs of the other machine. -/
theorem run_project {τ β : Type} {step' : τ → β → Option τ} {ok : σ → α → Prop}
    {ok' : τ → β → Prop} {Inv : σ → Prop} {abs : σ → τ}
    (hstep : ∀ s a s', Inv s → ok s a → step s a = some s' →
      Inv s' ∧ (abs s' = abs s ∨ ∃ b, ok' (abs s) b ∧ step' (abs s) b = some (abs s')))
    {s t : σ} {as : List α} (hs : Inv s) (hok : RunOk step ok s as)
    (hrun : run step s as = some t) :
    Inv t ∧ ∃ bs, RunOk step' ok' (abs s) bs ∧ run step' (abs s) bs = some (abs t) := by
  induction as generalizing s with
  | nil =>
    cases hrun
    exact ⟨hs, [], trivial, rfl⟩
  | cons a as ih =>
    obtain ⟨s', hs', hrest⟩ := run_cons_some.mp hrun
    obtain ⟨hinv, hone⟩ := hstep s a s' hs hok.1 hs'
    obtain ⟨ht, bs, hbs, hmany⟩ := ih hinv (hok.2 s' hs') hrest
    obtain hsame | ⟨b, hb, hb'⟩ := hone
    · rw [hsame] at hbs hmany
      exact ⟨ht, bs, hbs, hmany⟩
    · refine ⟨ht, b :: bs, ⟨hb, fun r hr => ?_⟩, run_cons_some.mpr ⟨abs s', hb', hmany⟩⟩
      rw [hb'] at hr
      cases hr
      exact hbs

/-- The steps of a bystander, which keep `R` to a state in which it does nothing, can be
removed from a run. -/
theorem run_erase {ok : σ → α → Prop} {R : σ → σ → Prop} {mine : α → Bool}
    (hmine : ∀ s t a s', R s t → mine a = true → ok s a → step s a = some s' → R s' t)
    (hother : ∀ s t a s', R s t → mine a = false → step s a = some s' →
      ∃ t', step t a = some t' ∧ R s' t')
    {s t s' : σ} {as : List α} (hR : R s t) (hok : RunOk step ok s as)
    (hrun : run step s as = some s') :
    ∃ t', run step t (as.filter fun a => !mine a) = some t' ∧ R s' t' := by
  induction as generalizing s t with
  | nil =>
    cases hrun
    exact ⟨t, rfl, hR⟩
  | cons a as ih =>
    obtain ⟨s₁, hs₁, hrest⟩ := run_cons_some.mp hrun
    cases ha : mine a with
    | true =>
      rw [List.filter_cons_of_neg (by simp [ha])]
      exact ih (hmine s t a s₁ hR ha hok.1 hs₁) (hok.2 s₁ hs₁) hrest
    | false =>
      obtain ⟨t₁, ht₁, hR₁⟩ := hother s t a s₁ hR ha hs₁
      obtain ⟨t', ht', hR'⟩ := ih hR₁ (hok.2 s₁ hs₁) hrest
      refine ⟨t', ?_, hR'⟩
      rw [List.filter_cons_of_pos (by simp [ha]), run_cons, ht₁]
      exact ht'

/-- The rule of invariants without a condition on the steps. -/
theorem run_invariant_all {Inv : σ → Prop}
    (hstep : ∀ s a s', Inv s → step s a = some s' → Inv s')
    {s t : σ} {as : List α} (hs : Inv s) (hrun : run step s as = some t) : Inv t := by
  induction as generalizing s with
  | nil =>
    cases hrun
    exact hs
  | cons a as ih =>
    obtain ⟨s', hs', hrest⟩ := run_cons_some.mp hrun
    exact ih (hstep s a s' hs hs') hrest

end

end TokuBackup.Lib
