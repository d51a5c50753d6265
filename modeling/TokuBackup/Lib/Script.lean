import Mathlib.Tactic.Common

/-!
# Programs that make calls

A program over a state `σ` makes calls of a type `C`; the answers come from a script, which
lists the calls that the program makes together with their answers. So a script is both the
behaviour of the environment and the trace of the execution, and an execution exists only for
the scripts that fit the program.

`Sat` is the partial correctness of such programs, with the part of the script that was read
in the postcondition. A `Ledger` says which answers are failures that the program has to
return and which it may lose; `Accounts` says that a program does so.
-/

namespace TokuBackup.Lib

variable {C : Type} {Answer : C → Type} {σ α β : Type}

/-- A program: it reads a part of the script and changes the state; `none` when the script
does not fit. -/
abbrev Script (Answer : C → Type) (σ : Type) := StateT (List (Sigma Answer) × σ) Option

namespace Script

/-- Make the call `c`: the script must have it next, with an answer. -/
def call [DecidableEq C] (c : C) : Script Answer σ (Answer c)
  | (⟨c', r⟩ :: es, s) => if h : c' = c then some (h ▸ r, es, s) else none
  | ([], _) => none

/-- The program cannot go on. -/
def stuck : Script Answer σ α := fun _ => none

def state : Script Answer σ σ := fun x => some (x.2, x)

def change (g : σ → σ) : Script Answer σ Unit := fun x => some ((), x.1, g x.2)

/-- At most `n` rounds of a loop. -/
def iterate (body : β → Script Answer σ (α ⊕ β)) : Nat → β → Script Answer σ α
  | 0, _ => stuck
  | n + 1, b => body b >>= fun
    | .inl a => pure a
    | .inr b => iterate body n b

/-- A loop each of whose rounds, except for the last, makes a call. -/
def loop (body : β → Script Answer σ (α ⊕ β)) (b : β) : Script Answer σ α :=
  fun x => iterate body (x.1.length + 1) b x

/-! ## Single executions -/

/-- The execution of `m` returns `a` and leaves the rest `es'` of the script. -/
def Runs (m : Script Answer σ α) (es : List (Sigma Answer)) (s : σ) (a : α)
    (es' : List (Sigma Answer)) : Prop :=
  ∃ s', m (es, s) = some (a, es', s')

section

variable {es es' es'' : List (Sigma Answer)} {s : σ} {a : α} {b : β}

theorem runs_pure : Runs (pure a : Script Answer σ α) es s a es := ⟨s, rfl⟩

theorem Runs.bind {m : Script Answer σ α} {f : α → Script Answer σ β} (hm : Runs m es s a es')
    (hf : ∀ s', Runs (f a) es' s' b es'') : Runs (m >>= f) es s b es'' := by
  obtain ⟨s', hm⟩ := hm
  obtain ⟨s'', hf⟩ := hf s'
  exact ⟨s'', Option.bind_eq_some_iff.mpr ⟨_, hm, hf⟩⟩

theorem runs_call [DecidableEq C] {c : C} {r : Answer c} {f : Answer c → Script Answer σ β}
    (h : Runs (f r) es s b es') : Runs (call c >>= f) (⟨c, r⟩ :: es) s b es' := by
  obtain ⟨s', h⟩ := h
  have hcall : (call c : Script Answer σ (Answer c)) (⟨c, r⟩ :: es, s) = some (r, es, s) :=
    dif_pos rfl
  exact ⟨s', Option.bind_eq_some_iff.mpr ⟨_, hcall, h⟩⟩

theorem runs_state {f : σ → Script Answer σ β} (h : Runs (f s) es s b es') :
    Runs (state >>= f) es s b es' := h

theorem runs_change {g : σ → σ} {f : Unit → Script Answer σ β} (h : Runs (f ()) es (g s) b es') :
    Runs (change g >>= f) es s b es' := h

theorem runs_iterate_inl {body : β → Script Answer σ (α ⊕ β)} {n : Nat}
    (h : Runs (body b) es s (.inl a) es') : Runs (iterate body (n + 1) b) es s a es' :=
  h.bind fun _ => runs_pure

theorem runs_iterate_inr {body : β → Script Answer σ (α ⊕ β)} {b' : β} {n : Nat}
    (h : Runs (body b) es s (.inr b') es') (h' : ∀ s', Runs (iterate body n b') es' s' a es'') :
    Runs (iterate body (n + 1) b) es s a es'' :=
  h.bind h'

end

/-! ## Partial correctness -/

/-- Every execution of `m` reads a part of the script, and `Q` relates the state before, that
part, the result and the state after. -/
def Sat (m : Script Answer σ α) (Q : σ → List (Sigma Answer) → α → σ → Prop) : Prop :=
  ∀ es s a es' s', m (es, s) = some (a, es', s') → ∃ t, es = t ++ es' ∧ Q s t a s'

variable {m : Script Answer σ α} {Q Q' : σ → List (Sigma Answer) → α → σ → Prop}

theorem Sat.mono (h : Sat m Q) (himp : ∀ s t a s', Q s t a s' → Q' s t a s') : Sat m Q' := by
  intro es s a es' s' hrun
  obtain ⟨t, ht, hq⟩ := h es s a es' s' hrun
  exact ⟨t, ht, himp s t a s' hq⟩

theorem sat_pure {a : α} (h : ∀ s, Q s [] a s) : Sat (pure a : Script Answer σ α) Q := by
  intro es s b es' s' hrun
  cases hrun
  exact ⟨[], rfl, h s⟩

theorem sat_stuck : Sat (stuck : Script Answer σ α) Q := by
  intro es s a es' s' hrun
  cases hrun

theorem sat_bind {f : α → Script Answer σ β} {R : σ → List (Sigma Answer) → β → σ → Prop}
    (hm : Sat m Q)
    (hf : ∀ a, Sat (f a) fun s' u b s'' => ∀ s t, Q s t a s' → R s (t ++ u) b s'') :
    Sat (m >>= f) R := by
  intro es s b es'' s'' hrun
  obtain ⟨⟨a, es', s'⟩, hfirst, hrest⟩ := Option.bind_eq_some_iff.mp hrun
  obtain ⟨t, ht, hq⟩ := hm es s a es' s' hfirst
  obtain ⟨u, hu, hr⟩ := hf a es' s' b es'' s'' hrest
  refine ⟨t ++ u, ?_, hr s t hq⟩
  rw [ht, hu, List.append_assoc]

theorem sat_call [DecidableEq C] {c : C} : Sat (call c : Script Answer σ (Answer c))
    fun s t r s' => t = [⟨c, r⟩] ∧ s' = s := by
  intro es s r es' s' hrun
  cases es with
  | nil => cases hrun
  | cons e es =>
    obtain ⟨c', r'⟩ := e
    simp only [call] at hrun
    split at hrun
    · rename_i h
      subst h
      cases hrun
      exact ⟨[⟨c', r'⟩], rfl, rfl, rfl⟩
    · cases hrun

theorem sat_state : Sat (state : Script Answer σ σ) fun s t a s' => t = [] ∧ a = s ∧ s' = s := by
  intro es s a es' s' hrun
  cases hrun
  exact ⟨[], rfl, rfl, rfl, rfl⟩

theorem sat_change {g : σ → σ} :
    Sat (change g : Script Answer σ Unit) fun s t _ s' => t = [] ∧ s' = g s := by
  intro es s a es' s' hrun
  cases hrun
  exact ⟨[], rfl, rfl, rfl⟩

/-- What holds of any number of rounds holds of a loop. -/
theorem sat_loop {body : β → Script Answer σ (α ⊕ β)} {b : β}
    (h : ∀ n, Sat (iterate body n b) Q) : Sat (loop body b) Q :=
  fun es s a es' s' hrun => h (es.length + 1) es s a es' s' hrun

/-! ## Triples -/

/-- When no event of the part that is read is a `bad` one, `pre` before the program gives
`post` after it. -/
def Hoare (bad : Sigma Answer → Prop) (pre : σ → Prop) (m : Script Answer σ α)
    (post : α → σ → Prop) : Prop :=
  Sat m fun s t a s' => (∀ e ∈ t, ¬ bad e) → pre s → post a s'

section

variable {bad : Sigma Answer → Prop} {pre : σ → Prop} {post : α → σ → Prop}
  {post' : β → σ → Prop} {f : α → Script Answer σ β}

theorem Hoare.weaken {pre' : σ → Prop} (h : Hoare bad pre m post) (hpre : ∀ s, pre' s → pre s) :
    Hoare bad pre' m post :=
  Sat.mono h fun s _ _ _ hs hnone hs' => hs hnone (hpre s hs')

theorem hoare_pure {a : α} (h : ∀ s, pre s → post a s) :
    Hoare bad pre (pure a : Script Answer σ α) post :=
  sat_pure fun s _ hs => h s hs

theorem hoare_stuck : Hoare bad pre (stuck : Script Answer σ α) post := sat_stuck

theorem hoare_bind (hm : Hoare bad pre m post) (hf : ∀ a, Hoare bad (post a) (f a) post') :
    Hoare bad pre (m >>= f) post' := by
  refine sat_bind hm fun a => (hf a).mono fun s' u b s'' hb s t ha hnone hs => ?_
  rw [List.forall_mem_append] at hnone
  exact hb hnone.2 (ha hnone.1 hs)

theorem hoare_call [DecidableEq C] {x : C} {f : Answer x → Script Answer σ β}
    (hf : ∀ r, Hoare bad pre (f r) post') : Hoare bad pre (call x >>= f) post' :=
  hoare_bind (sat_call.mono fun _ _ _ _ h _ hs => h.2 ▸ hs) hf

theorem hoare_state {f : σ → Script Answer σ β}
    (hf : ∀ a, Hoare bad (fun s => a = s ∧ pre s) (f a) post') :
    Hoare bad pre (state >>= f) post' :=
  hoare_bind (sat_state.mono fun _ _ _ _ h _ hs => by
    obtain ⟨-, rfl, rfl⟩ := h
    exact ⟨rfl, hs⟩) hf

theorem hoare_change {g : σ → σ} (mid : σ → Prop) {f : Unit → Script Answer σ β}
    (hg : ∀ s, pre s → mid (g s)) (hf : Hoare bad mid (f ()) post') :
    Hoare bad pre (change g >>= f) post' :=
  hoare_bind (sat_change.mono fun s _ _ _ h _ hs => h.2 ▸ hg s hs) fun _ => hf

/-- The invariant of a loop. -/
theorem hoare_loop {body : β → Script Answer σ (α ⊕ β)} {inv : β → σ → Prop}
    (hbody : ∀ b, Hoare bad (inv b) (body b) (Sum.elim post inv)) (b : β) :
    Hoare bad (inv b) (loop body b) post := by
  refine sat_loop fun n => ?_
  induction n generalizing b with
  | zero => exact sat_stuck
  | succ n ih =>
    refine hoare_bind (hbody b) fun x => ?_
    cases x with
    | inl a => exact hoare_pure fun s hs => hs
    | inr b => exact ih b

end

/-! ## Watches -/

/-- A watch follows the trace by `next`: when `pre` holds of its state before the program, and
of the program's own, `post` holds after it. -/
def Watched {γ : Type} (next : γ → Sigma Answer → γ) (pre : γ → σ → Prop) (m : Script Answer σ α)
    (post : α → γ → σ → Prop) : Prop :=
  Sat m fun s t a s' => ∀ g, pre g s → post a (t.foldl next g) s'

section

variable {γ : Type} {next : γ → Sigma Answer → γ} {pre pre' : γ → σ → Prop}
  {post post₂ : α → γ → σ → Prop} {post' : β → γ → σ → Prop} {f : α → Script Answer σ β}

theorem Watched.weaken (h : Watched next pre m post) (hpre : ∀ g s, pre' g s → pre g s)
    (hpost : ∀ a g s, post a g s → post₂ a g s) : Watched next pre' m post₂ :=
  Sat.mono h fun _ _ _ _ hs g hg => hpost _ _ _ (hs g (hpre g _ hg))

theorem Watched.or (h : Watched next pre m post) (h' : Watched next pre' m post) :
    Watched next (fun g s => pre g s ∨ pre' g s) m post := by
  intro es s a es' s' hrun
  obtain ⟨t, rfl, ht⟩ := h es s a es' s' hrun
  obtain ⟨t', heq, ht'⟩ := h' _ s a es' s' hrun
  obtain rfl : t = t' := List.append_cancel_right heq
  refine ⟨t, rfl, fun g hg => ?_⟩
  rcases hg with hg | hg
  · exact ht g hg
  · exact ht' g hg

theorem watched_pure {a : α} (h : ∀ g s, pre g s → post a g s) :
    Watched next pre (pure a : Script Answer σ α) post :=
  sat_pure fun s g hg => h g s hg

theorem watched_bind (hm : Watched next pre m post) (hf : ∀ a, Watched next (post a) (f a) post') :
    Watched next pre (m >>= f) post' := by
  refine sat_bind hm fun a => (hf a).mono fun s' u b s'' hb s t ha g hg => ?_
  rw [List.foldl_append]
  exact hb _ (ha g hg)

theorem watched_call [DecidableEq C] {x : C} {f : Answer x → Script Answer σ β}
    (mid : Answer x → γ → σ → Prop) (hg : ∀ r g s, pre g s → mid r (next g ⟨x, r⟩) s)
    (hf : ∀ r, Watched next (mid r) (f r) post') : Watched next pre (call x >>= f) post' :=
  watched_bind (sat_call.mono fun s t r s' h g hpre => by
    obtain ⟨rfl, rfl⟩ := h
    exact hg r g s' hpre) hf

theorem watched_state {f : σ → Script Answer σ β}
    (hf : ∀ a, Watched next (fun g s => a = s ∧ pre g s) (f a) post') :
    Watched next pre (state >>= f) post' :=
  watched_bind (sat_state.mono fun s t a s' h g hpre => by
    obtain ⟨rfl, rfl, rfl⟩ := h
    exact ⟨rfl, hpre⟩) hf

theorem watched_change {u : σ → σ} {f : Unit → Script Answer σ β} (mid : γ → σ → Prop)
    (hu : ∀ g s, pre g s → mid g (u s)) (hf : Watched next mid (f ()) post') :
    Watched next pre (change u >>= f) post' :=
  watched_bind (sat_change.mono fun s t a s' h g hpre => by
    obtain ⟨rfl, rfl⟩ := h
    exact hu g s hpre) fun _ => hf

theorem watched_loop {body : β → Script Answer σ (α ⊕ β)} {inv : β → γ → σ → Prop}
    (hbody : ∀ b, Watched next (inv b) (body b) (Sum.elim post inv)) (b : β) :
    Watched next (inv b) (loop body b) post := by
  refine sat_loop fun n => ?_
  induction n generalizing b with
  | zero => exact sat_stuck
  | succ n ih =>
    refine watched_bind (hbody b) fun x => ?_
    cases x with
    | inl a => exact watched_pure fun g s hs => hs
    | inr b => exact ih b

end

/-! ## Accounts -/

/-- Which answers are failures: a `carried` one has to show in the result, a `lost` one has
to be told at least. `quiet` relates states between which nothing has been told. -/
structure Ledger (Answer : C → Type) (σ : Type) where
  carried : Sigma Answer → Prop
  lost : Sigma Answer → Prop
  told : σ → Prop
  quiet : σ → σ → Prop
  quiet_refl : ∀ s, quiet s s
  quiet_trans : ∀ s s' s'', quiet s s' → quiet s' s'' → quiet s s''

/-- The program fails exactly when an answer was a carried failure, tells of lost ones, and
stays quiet without failures. Before it, a carried failure has occurred if `c` holds, a lost
one that nobody has been told of if `d` holds, and something was told if `q` holds. -/
def Ledger.Accounts (L : Ledger Answer σ) (fails : α → Prop) (c d q : Prop)
    (m : Script Answer σ α) : Prop :=
  Sat m fun s t a s' =>
    (fails a ↔ c ∨ ∃ e ∈ t, L.carried e) ∧ (L.told s ∨ d ∨ (∃ e ∈ t, L.lost e) → L.told s') ∧
      (¬ c → ¬ d → ¬ q → (∀ e ∈ t, ¬ L.carried e ∧ ¬ L.lost e) → L.quiet s s')

variable {L : Ledger Answer σ} {fails : α → Prop} {fails' : β → Prop} {c c' d d' q q' : Prop}

theorem Ledger.Accounts.of_iff (h : L.Accounts fails c d q m) (hc : c ↔ c') (hd : d ↔ d')
    (hq : q ↔ q') : L.Accounts fails c' d' q' m := by
  rw [← propext hc, ← propext hd, ← propext hq]
  exact h

/-- A program that accounts for its own failures, when there was none before it. -/
theorem Ledger.Accounts.of_clean (h : L.Accounts fails False False False m) (hc : ¬ c) (hd : ¬ d) :
    L.Accounts fails c d q m := by
  refine Sat.mono h fun s t a s' hs => ?_
  obtain ⟨hcarried, hlost, hquiet⟩ := hs
  refine ⟨?_, fun h => hlost ?_, fun _ _ _ => hquiet id id id⟩
  · rw [hcarried, eq_false hc]
  · rw [eq_false hd] at h
    exact h

/-- Without failures the program does not fail and is quiet. -/
theorem Ledger.Accounts.hoare (h : L.Accounts fails False False False m) (pre : σ → Prop) :
    Hoare (fun e => L.carried e ∨ L.lost e) pre m
      fun a s' => ¬ fails a ∧ ∃ s, pre s ∧ L.quiet s s' := by
  refine Sat.mono h fun s t a s' hs hnone hpre => ?_
  obtain ⟨hcarried, -, hquiet⟩ := hs
  simp only [not_or] at hnone
  refine ⟨?_, s, hpre, hquiet id id id hnone⟩
  rw [hcarried, false_or]
  intro hbad
  obtain ⟨e, he, hce⟩ := hbad
  exact (hnone e he).1 hce

theorem accounts_pure {a : α} (hfails : fails a ↔ c) (hd : ¬ d) :
    L.Accounts fails c d q (pure a : Script Answer σ α) :=
  sat_pure fun s => ⟨by simpa using hfails, by simp [hd], fun _ _ _ _ => L.quiet_refl s⟩

theorem accounts_stuck : L.Accounts fails c d q (stuck : Script Answer σ α) := sat_stuck

theorem accounts_bind {f : α → Script Answer σ β} (hm : L.Accounts fails False False False m)
    (hf : ∀ a, L.Accounts fails' (c ∨ fails a) d q (f a)) : L.Accounts fails' c d q (m >>= f) := by
  refine sat_bind hm fun a => (hf a).mono fun s' u b s'' hb s t ha => ?_
  obtain ⟨hcarried, hlost, hquiet⟩ := ha
  obtain ⟨hcarried', hlost', hquiet'⟩ := hb
  simp only [false_or, not_false_eq_true, true_implies] at hcarried hlost hquiet
  simp only [List.mem_append, or_and_right, exists_or]
  refine ⟨?_, fun h => hlost' ?_, fun hc hd hq hnone => ?_⟩
  · rw [hcarried', hcarried, or_assoc]
  · rcases h with h | h | h | h
    · exact Or.inl (hlost (Or.inl h))
    · exact Or.inr (Or.inl h)
    · exact Or.inl (hlost (Or.inr h))
    · exact Or.inr (Or.inr h)
  · have hfirst : ∀ e ∈ t, ¬ L.carried e ∧ ¬ L.lost e := fun e he => hnone e (Or.inl he)
    have hnot : ¬ fails a := by
      rw [hcarried]
      intro h
      obtain ⟨e, he, hce⟩ := h
      exact (hfirst e he).1 hce
    refine L.quiet_trans s s' s'' (hquiet hfirst) (hquiet' ?_ hd hq fun e he => hnone e (Or.inr he))
    rw [not_or]
    exact ⟨hc, hnot⟩

theorem accounts_call [DecidableEq C] {x : C} {f : Answer x → Script Answer σ β}
    (hf : ∀ r, L.Accounts fails' (c ∨ L.carried ⟨x, r⟩) (d ∨ L.lost ⟨x, r⟩) q (f r)) :
    L.Accounts fails' c d q (call x >>= f) := by
  refine sat_bind sat_call fun r => (hf r).mono fun s' u b s'' hb s t ha => ?_
  obtain ⟨rfl, rfl⟩ := ha
  obtain ⟨hcarried, hlost, hquiet⟩ := hb
  simp only [List.singleton_append, List.mem_cons, exists_eq_or_imp, forall_eq_or_imp]
  refine ⟨by rw [hcarried, or_assoc], fun h => hlost ?_, fun hc hd hq hnone => ?_⟩
  · rcases h with h | h | h | h
    · exact Or.inl h
    · exact Or.inr (Or.inl (Or.inl h))
    · exact Or.inr (Or.inl (Or.inr h))
    · exact Or.inr (Or.inr h)
  · obtain ⟨⟨hnc, hnl⟩, hrest⟩ := hnone
    refine hquiet ?_ ?_ hq hrest
    · rw [not_or]
      exact ⟨hc, hnc⟩
    · rw [not_or]
      exact ⟨hd, hnl⟩

theorem accounts_state {f : σ → Script Answer σ β} (hf : ∀ s, L.Accounts fails' c d q (f s)) :
    L.Accounts fails' c d q (state >>= f) := by
  refine sat_bind sat_state fun r => (hf r).mono fun s' u b s'' hb s t ha => ?_
  obtain ⟨rfl, -, rfl⟩ := ha
  exact hb

theorem accounts_change {g : σ → σ} {f : Unit → Script Answer σ β} (hquiet : ∀ s, L.quiet s (g s))
    (htold : ∀ s, L.told s → L.told (g s)) (hf : L.Accounts fails' c d q (f ())) :
    L.Accounts fails' c d q (change g >>= f) := by
  refine sat_bind sat_change fun r => hf.mono fun s' u b s'' hb s t ha => ?_
  obtain ⟨rfl, rfl⟩ := ha
  obtain ⟨hcarried, hlost, hafter⟩ := hb
  refine ⟨hcarried, fun h => hlost ?_, fun hc hd hq hnone => ?_⟩
  · rcases h with h | h
    · exact Or.inl (htold s h)
    · exact Or.inr h
  · exact L.quiet_trans _ _ _ (hquiet s) (hafter hc hd hq hnone)

/-- Telling, which only a failure justifies, settles what was not told yet. -/
theorem accounts_tell {g : σ → σ} {f : Unit → Script Answer σ β} (hwhy : c ∨ d ∨ q)
    (htold : ∀ s, L.told (g s)) (hf : L.Accounts fails' c False True (f ())) :
    L.Accounts fails' c d q (change g >>= f) := by
  refine sat_bind sat_change fun r => hf.mono fun s' u b s'' hb s t ha => ?_
  obtain ⟨rfl, rfl⟩ := ha
  obtain ⟨hcarried, hlost, -⟩ := hb
  refine ⟨hcarried, fun _ => hlost (Or.inl (htold s)), fun hc hd hq => ?_⟩
  rcases hwhy with h | h | h
  · exact absurd h hc
  · exact absurd h hd
  · exact absurd h hq

theorem accounts_loop {body : β → Script Answer σ (α ⊕ β)}
    (hbody : ∀ b, L.Accounts (Sum.elim fails fun _ => False) False False False (body b)) (b : β) :
    L.Accounts fails False False False (loop body b) := by
  refine sat_loop fun n => ?_
  induction n generalizing b with
  | zero => exact sat_stuck
  | succ n ih =>
    refine accounts_bind (hbody b) fun x => ?_
    cases x with
    | inl a => exact accounts_pure (by simp) (by simp)
    | inr b =>
      have hrest : L.Accounts fails False False False (iterate body n b) := ih b
      exact hrest.of_iff (by simp) Iff.rfl Iff.rfl

end Script

end TokuBackup.Lib
