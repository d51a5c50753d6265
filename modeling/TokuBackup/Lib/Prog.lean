import Mathlib.Tactic.Common

/-!
# Programs of single operations

A program is a tree of operations, with a branch for each answer; it returns a value, or
fails. What an operation does is left to a `Handler`, which says which answers are possible
in a state and what the state is afterwards. So one program can be executed alone, or step by
step among others.

* `exec` executes a program with a list of operations and answers, its trace.
* `All` is the weakest precondition, by recursion on the program; `all_iff` connects the two.
-/

namespace TokuBackup.Lib

variable {Op : Type} {Answer : Op → Type} {ε α β σ : Type}

inductive Prog (Answer : Op → Type) (ε α : Type) where
  | done (a : α)
  | fail (e : ε)
  | step (o : Op) (k : Answer o → Prog Answer ε α)

namespace Prog

def bind : Prog Answer ε α → (α → Prog Answer ε β) → Prog Answer ε β
  | done a, f => f a
  | fail e, _ => fail e
  | step o k, f => step o fun r => (k r).bind f

instance : Monad (Prog Answer ε) where
  pure := done
  bind := bind

/-- Perform one operation. -/
def call (o : Op) : Prog Answer ε (Answer o) := step o done

@[simp] theorem pure_eq (a : α) : (pure a : Prog Answer ε α) = done a := rfl

@[simp] theorem done_bind (a : α) (f : α → Prog Answer ε β) : (done a >>= f) = f a := rfl

@[simp] theorem fail_bind (e : ε) (f : α → Prog Answer ε β) : (fail e >>= f) = fail e := rfl

@[simp] theorem step_bind (o : Op) (k : Answer o → Prog Answer ε α) (f : α → Prog Answer ε β) :
    (step o k >>= f) = step o fun r => k r >>= f := rfl

@[simp] theorem call_bind (o : Op) (f : Answer o → Prog Answer ε β) :
    ((call o : Prog Answer ε (Answer o)) >>= f) = step o f := rfl

theorem bind_assoc {γ : Type} (p : Prog Answer ε α) (f : α → Prog Answer ε β)
    (g : β → Prog Answer ε γ) : (p >>= f >>= g) = p >>= fun a => f a >>= g := by
  induction p with
  | done a => rfl
  | fail e => rfl
  | step o k ih =>
    rw [step_bind, step_bind, step_bind]
    exact congrArg (step o) (funext ih)

end Prog

/-- What the operations do: some are answered by the state, the others by the environment,
which the state may restrict. -/
structure Handler (Answer : Op → Type) (σ : Type) where
  reply : (o : Op) → σ → Option (Answer o)
  allows : (o : Op) → σ → Answer o → Bool
  next : (o : Op) → σ → Answer o → σ

/-- The handler, with a record of the operations that have been performed. -/
def Handler.recorded (H : Handler Answer σ) : Handler Answer (σ × List Op) where
  reply o s := H.reply o s.1
  allows o s := H.allows o s.1
  next o s r := (H.next o s.1 r, s.2 ++ [o])

namespace Prog

/-- Execute a program; the list has exactly the operations that the environment answers, with
their answers. -/
def exec [DecidableEq Op] (H : Handler Answer σ) :
    Prog Answer ε α → σ → List (Sigma Answer) → Option (Except ε α × σ)
  | done a, s, es => if es.isEmpty then some (.ok a, s) else none
  | fail e, s, es => if es.isEmpty then some (.error e, s) else none
  | step o k, s, es =>
    match H.reply o s with
    | some r => exec H (k r) (H.next o s r) es
    | none =>
      match es with
      | [] => none
      | ⟨o', r⟩ :: es =>
        if h : o' = o then
          if H.allows o s (h ▸ r) then exec H (k (h ▸ r)) (H.next o s (h ▸ r)) es else none
        else none

/-- Every execution from the state ends in a trace, result and state that meet `Q`. -/
def All (H : Handler Answer σ) :
    Prog Answer ε α → σ → (List (Sigma Answer) → Except ε α → σ → Prop) → Prop
  | done a, s, Q => Q [] (.ok a) s
  | fail e, s, Q => Q [] (.error e) s
  | step o k, s, Q =>
    match H.reply o s with
    | some r => All H (k r) (H.next o s r) Q
    | none =>
      ∀ r, H.allows o s r = true →
        All H (k r) (H.next o s r) fun es x s' => Q (⟨o, r⟩ :: es) x s'

section

variable {H : Handler Answer σ} {s : σ} {Q Q' : List (Sigma Answer) → Except ε α → σ → Prop}
  {p : Prog Answer ε α}

theorem all_step {o : Op} {k : Answer o → Prog Answer ε α} :
    All H (step o k) s Q =
      match H.reply o s with
      | some r => All H (k r) (H.next o s r) Q
      | none =>
        ∀ r, H.allows o s r = true →
          All H (k r) (H.next o s r) fun es x s' => Q (⟨o, r⟩ :: es) x s' := by
  rw [All.eq_def]

/-- An operation that the state answers. -/
theorem all_reply {o : Op} {k : Answer o → Prog Answer ε α} {r : Answer o}
    (hr : H.reply o s = some r) (h : All H (k r) (H.next o s r) Q) : All H (step o k) s Q := by
  rw [all_step, hr]
  exact h

/-- An operation that the environment answers. -/
theorem all_answer {o : Op} {k : Answer o → Prog Answer ε α} (hr : H.reply o s = none)
    (h : ∀ r, H.allows o s r = true →
      All H (k r) (H.next o s r) fun es x s' => Q (⟨o, r⟩ :: es) x s') : All H (step o k) s Q := by
  rw [all_step, hr]
  exact h

theorem all_call_reply {o : Op} {f : Answer o → Prog Answer ε α} {r : Answer o}
    (hr : H.reply o s = some r) (h : All H (f r) (H.next o s r) Q) : All H (call o >>= f) s Q :=
  all_reply hr h

theorem all_call_answer {o : Op} {f : Answer o → Prog Answer ε α} (hr : H.reply o s = none)
    (h : ∀ r, H.allows o s r = true →
      All H (f r) (H.next o s r) fun es x s' => Q (⟨o, r⟩ :: es) x s') :
    All H (call o >>= f) s Q :=
  all_answer hr h

theorem All.mono (h : All H p s Q) (himp : ∀ es x s', Q es x s' → Q' es x s') :
    All H p s Q' := by
  induction p generalizing s Q Q' with
  | done a => exact himp _ _ _ h
  | fail e => exact himp _ _ _ h
  | step o k ih =>
    rw [all_step] at h ⊢
    cases hr : H.reply o s with
    | some r =>
      rw [hr] at h
      exact ih r h himp
    | none =>
      rw [hr] at h
      exact fun r hallows => ih r (h r hallows) fun es x s' => himp _ _ _

/-- The rule of sequences: what the first part ends with suffices for the second. -/
theorem All.bind {f : α → Prog Answer ε β} {R : List (Sigma Answer) → Except ε β → σ → Prop}
    (h : All H p s Q) (herror : ∀ es e s', Q es (.error e) s' → R es (.error e) s')
    (hok : ∀ es a s', Q es (.ok a) s' → All H (f a) s' fun es' y s'' => R (es ++ es') y s'') :
    All H (p >>= f) s R := by
  induction p generalizing s Q R with
  | done a => exact hok _ _ _ h
  | fail e => exact herror _ _ _ h
  | step o k ih =>
    rw [all_step] at h
    rw [step_bind, all_step]
    cases hr : H.reply o s with
    | some r =>
      rw [hr] at h
      exact ih r h herror hok
    | none =>
      rw [hr] at h
      exact fun r hallows =>
        ih r (h r hallows) (fun es e s' => herror _ _ _) fun es a s' => hok _ _ _

theorem All.and (h : All H p s Q) (h' : All H p s Q') :
    All H p s fun es x s' => Q es x s' ∧ Q' es x s' := by
  induction p generalizing s Q Q' with
  | done a => exact ⟨h, h'⟩
  | fail e => exact ⟨h, h'⟩
  | step o k ih =>
    rw [all_step] at h h' ⊢
    cases hr : H.reply o s with
    | some r =>
      rw [hr] at h h'
      exact ih r h h'
    | none =>
      rw [hr] at h h'
      exact fun r hallows => ih r (h r hallows) (h' r hallows)

theorem all_true : All H p s fun _ _ _ => True := by
  induction p generalizing s with
  | done a => trivial
  | fail e => trivial
  | step o k ih =>
    rw [all_step]
    split
    · exact ih _
    · exact fun r _ => ih r

theorem exec_step [DecidableEq Op] {o : Op} {k : Answer o → Prog Answer ε α}
    {es : List (Sigma Answer)} :
    exec H (step o k) s es =
      match H.reply o s with
      | some r => exec H (k r) (H.next o s r) es
      | none =>
        match es with
        | [] => none
        | ⟨o', r⟩ :: es =>
          if h : o' = o then
            if H.allows o s (h ▸ r) then exec H (k (h ▸ r)) (H.next o s (h ▸ r)) es else none
          else none := by
  rw [exec.eq_def]

/-- An operation that the state answers. -/
theorem exec_reply [DecidableEq Op] {o : Op} {k : Answer o → Prog Answer ε α} {r : Answer o}
    {es : List (Sigma Answer)} (hr : H.reply o s = some r) :
    exec H (step o k) s es = exec H (k r) (H.next o s r) es := by
  rw [exec_step, hr]

theorem all_iff [DecidableEq Op] :
    All H p s Q ↔ ∀ es x s', exec H p s es = some (x, s') → Q es x s' := by
  induction p generalizing s Q with
  | done a =>
    constructor
    · intro h es x s' hrun
      obtain ⟨hes, hx⟩ := Option.ite_none_right_eq_some.mp hrun
      cases hx
      rwa [List.isEmpty_iff.mp hes]
    · exact fun h => h [] _ _ rfl
  | fail e =>
    constructor
    · intro h es x s' hrun
      obtain ⟨hes, hx⟩ := Option.ite_none_right_eq_some.mp hrun
      cases hx
      rwa [List.isEmpty_iff.mp hes]
    · exact fun h => h [] _ _ rfl
  | step o k ih =>
    rw [all_step]
    cases hr : H.reply o s with
    | some r =>
      simp only [exec_step, hr]
      exact ih r
    | none =>
      simp only [exec_step, hr]
      constructor
      · intro h es x s' hrun
        cases es with
        | nil => cases hrun
        | cons e es =>
          obtain ⟨o', r⟩ := e
          dsimp only at hrun
          split at hrun
          · rename_i ho
            subst ho
            obtain ⟨hallows, hrun⟩ := Option.ite_none_right_eq_some.mp hrun
            exact (ih r).mp (h r hallows) es x s' hrun
          · cases hrun
      · intro h r hallows
        refine (ih r).mpr fun es x s' hrun => h _ _ _ ?_
        dsimp only
        rw [dif_pos rfl, if_pos hallows]
        exact hrun

end

/-! ## Programs of some kind of operation -/

/-- The program performs no operation but those that `P` allows, and does not fail. -/
def Only (P : Op → Prop) : Prog Answer ε α → Prop
  | done _ => True
  | fail _ => False
  | step o k => P o ∧ ∀ r, Only P (k r)

section

variable {P P' : Op → Prop}

theorem only_pure (a : α) : Only P (pure a : Prog Answer ε α) := trivial

theorem only_call {o : Op} {f : Answer o → Prog Answer ε β} (ho : P o) (hf : ∀ r, Only P (f r)) :
    Only P (call o >>= f) :=
  ⟨ho, hf⟩

theorem only_last {o : Op} (ho : P o) : Only P (call o : Prog Answer ε (Answer o)) :=
  ⟨ho, fun _ => trivial⟩

theorem Only.bind {p : Prog Answer ε α} {f : α → Prog Answer ε β} (h : Only P p)
    (hf : ∀ a, Only P (f a)) : Only P (p >>= f) := by
  induction p with
  | done a => exact hf a
  | fail e => exact h.elim
  | step o k ih => exact ⟨h.1, fun r => ih r (h.2 r)⟩

theorem Only.mono {p : Prog Answer ε α} (h : Only P p) (himp : ∀ o, P o → P' o) : Only P' p := by
  induction p with
  | done a => trivial
  | fail e => exact h
  | step o k ih => exact ⟨himp o h.1, fun r => ih r (h.2 r)⟩

/-- A relation that every operation of the kind preserves holds between the first and the last
state of an execution. -/
theorem Only.all {H : Handler Answer σ} {R : σ → σ → Prop} {p : Prog Answer ε α} (h : Only P p)
    (hrefl : ∀ s, R s s) (htrans : ∀ s s' s'', R s s' → R s' s'' → R s s'')
    (hR : ∀ o s r, P o → H.allows o s r = true ∨ H.reply o s = some r →
      R s (H.next o s r)) (s : σ) :
    All H p s fun es x s' => R s s' ∧ (∀ e ∈ es, P e.1) ∧ ∃ a, x = .ok a := by
  induction p generalizing s with
  | done a => exact ⟨hrefl s, by simp, a, rfl⟩
  | fail e => exact h.elim
  | step o k ih =>
    rw [all_step]
    cases hr : H.reply o s with
    | some r =>
      exact (ih r (h.2 r) _).mono fun es x s' ⟨hR', hes, hx⟩ =>
        ⟨htrans _ _ _ (hR o s r h.1 (Or.inr hr)) hR', hes, hx⟩
    | none =>
      intro r hallows
      refine (ih r (h.2 r) _).mono fun es x s' ⟨hR', hes, hx⟩ =>
        ⟨htrans _ _ _ (hR o s r h.1 (Or.inl hallows)) hR', ?_, hx⟩
      rw [List.forall_mem_cons]
      exact ⟨h.1, hes⟩

end

/-! ## What a program performs -/

/-- The program performs no operation but those that `P` allows; it may fail. -/
def Performs (P : Op → Prop) : Prog Answer ε α → Prop
  | done _ => True
  | fail _ => True
  | step o k => P o ∧ ∀ r, Performs P (k r)

section

variable {P P' : Op → Prop}

theorem performs_pure (a : α) : Performs P (pure a : Prog Answer ε α) := trivial

theorem performs_fail (e : ε) : Performs P (fail e : Prog Answer ε α) := trivial

theorem performs_call {o : Op} {f : Answer o → Prog Answer ε β} (ho : P o)
    (hf : ∀ r, Performs P (f r)) : Performs P (call o >>= f) :=
  ⟨ho, hf⟩

theorem performs_last {o : Op} (ho : P o) : Performs P (call o : Prog Answer ε (Answer o)) :=
  ⟨ho, fun _ => trivial⟩

theorem Performs.bind {p : Prog Answer ε α} {f : α → Prog Answer ε β} (h : Performs P p)
    (hf : ∀ a, Performs P (f a)) : Performs P (p >>= f) := by
  induction p with
  | done a => exact hf a
  | fail e => trivial
  | step o k ih => exact ⟨h.1, fun r => ih r (h.2 r)⟩

end

/-! ## Monitors -/

end Prog

/-- A monitor follows the operations of a program, and permits them or not. -/
structure Monitor (Answer : Op → Type) (μ : Type) where
  permits : Op → μ → Prop
  next : (o : Op) → μ → Answer o → μ

namespace Prog

variable {μ : Type} {M : Monitor Answer μ} {m : μ}

/-- Whatever the answers are, the monitor permits every operation, and in the end the result
and its state meet `Q`. -/
def Obeys (M : Monitor Answer μ) : Prog Answer ε α → μ → (α → μ → Prop) → Prop
  | done a, m, Q => Q a m
  | fail _, _, _ => True
  | step o k, m, Q => M.permits o m ∧ ∀ r, Obeys M (k r) (M.next o m r) Q

theorem Obeys.mono {p : Prog Answer ε α} {Q Q' : α → μ → Prop} (h : Obeys M p m Q)
    (himp : ∀ a m', Q a m' → Q' a m') : Obeys M p m Q' := by
  induction p generalizing m with
  | done a => exact himp a m h
  | fail e => trivial
  | step o k ih => exact ⟨h.1, fun r => ih r (h.2 r)⟩

theorem Obeys.bind {p : Prog Answer ε α} {f : α → Prog Answer ε β} {Q : α → μ → Prop}
    {R : β → μ → Prop} (h : Obeys M p m Q) (hf : ∀ a m', Q a m' → Obeys M (f a) m' R) :
    Obeys M (p >>= f) m R := by
  induction p generalizing m with
  | done a => exact hf a m h
  | fail e => trivial
  | step o k ih => exact ⟨h.1, fun r => ih r (h.2 r)⟩

theorem obeys_call {o : Op} {f : Answer o → Prog Answer ε β} {R : β → μ → Prop}
    (hp : M.permits o m) (hf : ∀ r, Obeys M (f r) (M.next o m r) R) :
    Obeys M (call o >>= f) m R :=
  ⟨hp, hf⟩

/-- A program whose operations the monitor permits in a state, in which they leave it. -/
theorem Performs.obeys {P : Op → Prop} {p : Prog Answer ε α} (h : Performs P p)
    (hP : ∀ o, P o → M.permits o m ∧ ∀ r, M.next o m r = m) :
    Obeys M p m fun _ m' => m' = m := by
  induction p with
  | done a => rfl
  | fail e => trivial
  | step o k ih =>
    obtain ⟨hpermits, hnext⟩ := hP o h.1
    refine ⟨hpermits, fun r => ?_⟩
    rw [hnext r]
    exact ih r (h.2 r)

end Prog

end TokuBackup.Lib
