import TokuBackup.Lib.Prog

/-!
# Programs with hazards

Some operations are risky: what they work on may be broken, and then the program ends. Whether
it is, the environment says just before the operation. `All.hazard` takes over what is known of
the program without its hazards: it holds as long as the environment sees none, and otherwise
the program has ended with the hazard's fault.
-/

namespace TokuBackup.Lib

variable {Op : Type} {Answer : Op → Type} {ε α σ : Type}

/-- The answers to the operations, and to the question whether an operation goes wrong. -/
def Guarded (Answer : Op → Type) : Op ⊕ Op → Type
  | .inl o => Answer o
  | .inr _ => Bool

/-- Before each risky operation it is asked whether it goes wrong; then the program fails. -/
def Prog.hazard (risky : Op → Bool) (e : ε) : Prog Answer ε α → Prog (Guarded Answer) ε α
  | .done a => .done a
  | .fail e' => .fail e'
  | .step o k =>
    let perform : Prog (Guarded Answer) ε α :=
      .step (.inl o) fun (r : Answer o) => (k r).hazard risky e
    if risky o then .step (.inr o) fun (wrong : Bool) => if wrong then .fail e else perform
    else perform

def Guarded.reply (reply : (o : Op) → σ → Option (Answer o)) :
    (o : Op ⊕ Op) → σ → Option (Guarded Answer o)
  | .inl o, s => reply o s
  | .inr _, _ => none

def Guarded.allows (allows : (o : Op) → σ → Answer o → Bool) :
    (o : Op ⊕ Op) → σ → Guarded Answer o → Bool
  | .inl o, s, r => allows o s r
  | .inr _, _, _ => true

def Guarded.next (next : (o : Op) → σ → Answer o → σ) :
    (o : Op ⊕ Op) → σ → Guarded Answer o → σ
  | .inl o, s, r => next o s r
  | .inr _, s, _ => s

/-- The environment decides which operations go wrong. -/
def Handler.hazard (H : Handler Answer σ) : Handler (Guarded Answer) σ :=
  ⟨Guarded.reply H.reply, Guarded.allows H.allows, Guarded.next H.next⟩

/-- An operation that is performed, with its answer. -/
def performed : Sigma (Guarded Answer) → Option (Sigma Answer)
  | ⟨.inl o, r⟩ => some ⟨o, r⟩
  | ⟨.inr _, _⟩ => none

/-- No operation goes wrong. -/
def Clear (es : List (Sigma (Guarded Answer))) : Prop :=
  ∀ o : Op, (⟨.inr o, true⟩ : Sigma (Guarded Answer)) ∉ es

theorem clear_nil : Clear ([] : List (Sigma (Guarded Answer))) := by
  intro o h
  cases h

theorem clear_performed (o : Op) (r : Answer o) (es : List (Sigma (Guarded Answer))) :
    Clear ((⟨.inl o, r⟩ : Sigma (Guarded Answer)) :: es) ↔ Clear es := by
  refine forall_congr' fun o' => ?_
  rw [List.mem_cons, or_iff_right]
  intro h
  cases h

theorem clear_passed (o : Op) (es : List (Sigma (Guarded Answer))) :
    Clear ((⟨.inr o, false⟩ : Sigma (Guarded Answer)) :: es) ↔ Clear es := by
  refine forall_congr' fun o' => ?_
  rw [List.mem_cons, or_iff_right]
  intro h
  cases h

/-- The program as it is without hazards, or ended by one. -/
def Hazarded (e : ε) (Q : List (Sigma Answer) → Except ε α → σ → Prop)
    (es : List (Sigma (Guarded Answer))) (x : Except ε α) (s : σ) : Prop :=
  (Clear es ∧ Q (es.filterMap performed) x s) ∨ (¬ Clear es ∧ x = .error e)

section

variable {H : Handler Answer σ} {s : σ} {Q : List (Sigma Answer) → Except ε α → σ → Prop} {e : ε}

theorem hazarded_performed {o : Op} {r : Answer o} {es : List (Sigma (Guarded Answer))}
    {x : Except ε α} {s' : σ} (h : Hazarded e (fun es => Q (⟨o, r⟩ :: es)) es x s') :
    Hazarded e Q ((⟨.inl o, r⟩ : Sigma (Guarded Answer)) :: es) x s' := by
  unfold Hazarded
  rw [clear_performed]
  exact h

theorem hazarded_passed {o : Op} {es : List (Sigma (Guarded Answer))} {x : Except ε α} {s' : σ}
    (h : Hazarded e Q es x s') :
    Hazarded e Q ((⟨.inr o, false⟩ : Sigma (Guarded Answer)) :: es) x s' := by
  unfold Hazarded
  rw [clear_passed]
  exact h

theorem Prog.All.hazard {p : Prog Answer ε α} (risky : Op → Bool) (h : p.All H s Q) :
    (p.hazard risky e).All H.hazard s (Hazarded e Q) := by
  induction p generalizing s Q with
  | done a => exact Or.inl ⟨clear_nil, h⟩
  | fail e' => exact Or.inl ⟨clear_nil, h⟩
  | step o k ih =>
    have hperform : Prog.All H.hazard (.step (.inl o) fun (r : Answer o) => (k r).hazard risky e) s
        (Hazarded e Q) := by
      rw [all_step] at h
      cases hr : H.reply o s with
      | some r =>
        rw [hr] at h
        exact all_reply (H := H.hazard) (o := .inl o) hr (ih r h)
      | none =>
        rw [hr] at h
        refine all_answer (H := H.hazard) (o := .inl o) hr fun (r : Answer o) hallows => ?_
        exact (ih r (h r hallows)).mono fun _ _ _ => hazarded_performed
    rw [Prog.hazard]
    split
    · refine all_answer (H := H.hazard) (o := .inr o) rfl fun (wrong : Bool) _ => ?_
      cases wrong with
      | true => exact Or.inr ⟨fun hclear => hclear o (List.mem_singleton.mpr rfl), rfl⟩
      | false => exact hperform.mono fun _ _ _ => hazarded_passed
    · exact hperform

end

end TokuBackup.Lib
