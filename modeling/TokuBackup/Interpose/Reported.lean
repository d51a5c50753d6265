import TokuBackup.Interpose.Manager

/-!
# Failures of the capture are reported

Which failures of system calls on the backup are recorded as an error of the manager before
the interposed call returns. Most are reported where they occur. Not reported are the ones of
`open_path` in a captured `open`, whose result the interposed call ignores, and of the `open`
that creates the destination in `rename` and `unlink`, in spite of the comments there.

`capture_failure_recorded_iff` says exactly when a call meets its obligation. The pieces of
the calls are either `Loud`, which report their own failures, or `Quiet`, which report nothing
and let their result show a failure.
-/

namespace TokuBackup.Interpose

open Kernel Table Lib Prog
open DoBackup (Errno)

/-! ## Failures -/

/-- A system call on the backup that has failed, other than for a reason that the code
expects: a file that is not there yet, a directory that is, and a destination that has not
been copied yet. -/
def Failed : Event → Prop
  | ⟨.backup (.stat _), (r : Except Errno Nat)⟩ => ∃ e, r = .error e ∧ e ≠ .enoent
  | ⟨.backup (.mkdir _), (r : Except Errno Nat)⟩ => ∃ e, r = .error e ∧ e ≠ .eexist
  | ⟨.backup (.rename _ _), (r : Except Errno Nat)⟩ => ∃ e, r = .error e ∧ e ≠ .enoent
  | ⟨.backup _, (r : Except Errno Nat)⟩ => ∃ e, r = .error e
  | _ => False

/-- The calls on the backup whose failure goes unreported in a call of the application. -/
def AppCall.hushes : AppCall → BackupCall → Bool
  | .openFile _ _ _ _, .stat _ => true
  | .openFile _ _ _ _, .mkdir _ => true
  | .rename _ _, .openFile _ => true
  | .unlink _, .openFile _ => true
  | _, _ => false

/-- A failure of a call that `hushes` names. -/
def Silent (hushes : BackupCall → Bool) (e : Event) : Prop :=
  Failed e ∧ ∃ c, e.1 = .backup c ∧ hushes c = true

/-- The `fstat` of `manager::open` has failed. -/
def FstatFailed (e : Event) : Prop :=
  match e with
  | ⟨.fstat _, (r : Except Errno FdKind)⟩ => ∃ err, r = .error err
  | _ => False

/-! ## The error of the manager -/

/-- The error stays, or one with a number other than zero is recorded. -/
def Moves (s s' : Manager) : Prop :=
  s'.error = s.error ∨ s.error = none ∧ ∃ n text, s'.error = some (n, text) ∧ n ≠ 0

theorem Moves.refl (s : Manager) : Moves s s := Or.inl rfl

theorem Moves.trans {s s' s'' : Manager} (h : Moves s s') (h' : Moves s' s'') : Moves s s'' := by
  rcases h with h | ⟨hnone, n, text, hn, hne⟩
  · rcases h' with h' | ⟨hnone, hsome⟩
    · exact Or.inl (h'.trans h)
    · exact Or.inr ⟨h ▸ hnone, hsome⟩
  · rcases h' with h' | ⟨hnone', -⟩
    · exact Or.inr ⟨hnone, n, text, h' ▸ hn, hne⟩
    · rw [hn] at hnone'
      cases hnone'

theorem Moves.isSome {s s' : Manager} (h : Moves s s') (hs : s.error.isSome) : s'.error.isSome := by
  rcases h with h | ⟨hnone, -⟩
  · rwa [h]
  · rw [hnone] at hs
    cases hs

theorem moves_backupError {s : Manager} {n : Int} (hn : n ≠ 0) (text : String) :
    Moves s (s.backupError n text) ∧ (s.backupError n text).error.isSome := by
  unfold Moves Manager.backupError
  cases s.error with
  | none => exact ⟨Or.inr ⟨rfl, n, text, rfl, hn⟩, rfl⟩
  | some x => exact ⟨Or.inl rfl, rfl⟩

/-- Neither a report nor a call whose failure matters. -/
def Op.plain : Op → Bool
  | .backupError _ _ => false
  | .fatalError _ _ => false
  | .backup _ => false
  | .fstat _ => false
  | _ => true

theorem plain_mute {o : Op} (h : o.plain = true) : o.mute = true := by
  cases o <;> first | rfl | cases h

theorem plain_not_failed {o : Op} (h : o.plain = true) (r : o.Answer) :
    ¬ Failed ⟨o, r⟩ ∧ ¬ FstatFailed ⟨o, r⟩ := by
  cases o with
  | backup c => cases h
  | fstat fd => cases h
  | _ => exact ⟨id, id⟩

theorem after_error {α : Type} (s : Manager) (r : Except Errno α) :
    (s.after r).error = s.error := by
  cases r with
  | ok v => rfl
  | error e => rfl

theorem next_error {o : Op} (h : o.mute = true) (s : Manager) (r : o.Answer) :
    (Op.next o s r).error = s.error := by
  cases o with
  | backupError n text => cases h
  | fatalError n text => cases h
  | real c => exact after_error s r
  | realpath site path => exact after_error s r
  | fstat fd => exact after_error s r
  | backup c => exact after_error s r
  | _ => rfl

/-! ## Loud and quiet programs -/

section

variable {hushes : BackupCall → Bool} {q : Prop} {α β : Type}

/-- The event is neither a failure that goes unreported nor one of `fstat`. -/
def Clean (hushes : BackupCall → Bool) (e : Event) : Prop := ¬ Silent hushes e ∧ ¬ FstatFailed e

theorem clean_plain {o : Op} (h : o.plain = true) (r : o.Answer) : Clean hushes ⟨o, r⟩ :=
  ⟨fun hs => (plain_not_failed h r).1 hs.1, (plain_not_failed h r).2⟩

theorem clean_backup {c : BackupCall} (h : hushes c = false) (r : Except Errno Nat) :
    Clean hushes ⟨.backup c, r⟩ := by
  refine ⟨fun hs => ?_, id⟩
  obtain ⟨-, c', hc', hs⟩ := hs
  cases hc'
  rw [h] at hs
  cases hs

/-- The program reports its failures, none of which is a hushed one; one that has occurred
before it, if `q` holds, is reported too. -/
def Loud (hushes : BackupCall → Bool) (q : Prop) (p : CallM α) : Prop :=
  ∀ s, All managerHandler p s fun es x s' =>
    Moves s s' ∧ (∀ e ∈ es, Clean hushes e) ∧
      ∀ a, x = .ok a → (q ∨ ∃ e ∈ es, Failed e) → s'.error.isSome

theorem loud_pure {a : α} (hq : ¬ q) : Loud hushes q (pure a : CallM α) :=
  fun s => ⟨Moves.refl s, by simp, fun _ _ h => by simp [hq] at h⟩

theorem loud_fail (e : Fault) : Loud hushes q (fail e : CallM α) :=
  fun s => ⟨Moves.refl s, by simp, fun _ h => by cases h⟩

theorem Loud.of_imp {q' : Prop} {p : CallM α} (h : Loud hushes q p) (hq : q' → q) :
    Loud hushes q' p :=
  fun s => (h s).mono fun _ _ _ ⟨hm, hs, ht⟩ => ⟨hm, hs, fun a ha hf => ht a ha (hf.imp_left hq)⟩

/-- An operation that is no report. -/
theorem loud_call {o : Op} {f : o.Answer → CallM β} (ho : o.mute = true)
    (hs : ∀ r, Clean hushes ⟨o, r⟩) (hf : ∀ r, Loud hushes (q ∨ Failed ⟨o, r⟩) (f r)) :
    Loud hushes q (call o >>= f) := by
  intro s
  rw [call_bind, all_step]
  -- the operation leaves the error as it is
  have hmoves : ∀ {r : o.Answer} {s' : Manager}, Moves (Op.next o s r) s' → Moves s s' :=
    fun h => Moves.trans (Or.inl (next_error ho s _)) h
  split
  · rename_i r hr
    exact ((hf r).of_imp Or.inl _).mono fun es x s' ⟨hm, hs, ht⟩ => ⟨hmoves hm, hs, ht⟩
  · intro r _
    refine (hf r _).mono fun es x s' ⟨hm, hclean, ht⟩ => ⟨hmoves hm, ?_, fun a ha h => ht a ha ?_⟩
    · rw [List.forall_mem_cons]
      exact ⟨hs r, hclean⟩
    · rw [List.exists_mem_cons_iff] at h
      rcases h with h | h | h
      · exact Or.inl (Or.inl h)
      · exact Or.inl (Or.inr h)
      · exact Or.inr h

theorem loud_step {o : Op} {f : o.Answer → CallM β} (ho : o.plain = true)
    (hf : ∀ r, Loud hushes q (f r)) : Loud hushes q (call o >>= f) :=
  loud_call (plain_mute ho) (clean_plain ho) fun r =>
    (hf r).of_imp fun h => h.resolve_right (plain_not_failed ho r).1

theorem loud_backup {c : BackupCall} {f : Except Errno Nat → CallM β} (hc : hushes c = false)
    (hf : ∀ r : Except Errno Nat, Loud hushes (q ∨ Failed ⟨.backup c, r⟩) (f r)) :
    Loud hushes q (backup c >>= f) :=
  loud_call rfl (clean_backup hc) hf

theorem loud_backupError {n : Int} {text : String} {f : Unit → CallM β} (hn : n ≠ 0)
    (hf : Loud hushes False (f ())) : Loud hushes q (backupError n text >>= f) := by
  intro s
  obtain ⟨hmoves, hsome⟩ := @moves_backupError s n hn text
  refine all_reply (r := ()) rfl ((hf _).mono fun es x s' ⟨hm, hs, ht⟩ => ⟨hmoves.trans hm, hs, ?_⟩)
  exact fun _ _ _ => hm.isSome hsome

theorem loud_fatalError {n : Int} {text : String} {f : Unit → CallM β} (hn : n ≠ 0)
    (hf : Loud hushes False (f ())) : Loud hushes q (fatalError n text >>= f) := by
  intro s
  obtain ⟨hmoves, hsome⟩ := @moves_backupError s n hn text
  have hmoves' : Moves s (s.fatalError n text) := hmoves
  refine all_reply (r := ())
    rfl ((hf _).mono fun es x s' ⟨hm, hs, ht⟩ => ⟨hmoves'.trans hm, hs, ?_⟩)
  exact fun _ _ _ => hm.isSome hsome

/-- A report at the end of a program. -/
theorem loud_report {n : Int} {text : String} (hn : n ≠ 0) :
    Loud hushes q (backupError n text) :=
  loud_backupError (f := pure) hn (loud_pure id)

theorem loud_last {o : Op} (ho : o.plain = true) (hq : ¬ q) :
    Loud hushes q (call o : CallM o.Answer) :=
  loud_step (f := pure) ho fun _ => loud_pure hq

theorem loud_bind {p : CallM α} {f : α → CallM β} (hp : Loud hushes False p)
    (hf : ∀ a, Loud hushes q (f a)) : Loud hushes q (p >>= f) := by
  intro s
  refine (hp s).bind (fun es e s' h => ⟨h.1, h.2.1, fun a ha => by cases ha⟩) ?_
  intro es a s' ⟨hm, hs, ht⟩
  refine (hf a s').mono fun es' y s'' ⟨hm', hs', ht'⟩ => ⟨hm.trans hm', ?_, fun b hb h => ?_⟩
  · rw [List.forall_mem_append]
    exact ⟨hs, hs'⟩
  · rcases h with h | ⟨e, he, hfail⟩
    · exact ht' b hb (Or.inl h)
    · rcases List.mem_append.mp he with he | he
      · exact hm'.isSome (ht a rfl (Or.inr ⟨e, he, hfail⟩))
      · exact ht' b hb (Or.inr ⟨e, he, hfail⟩)

theorem loud_onlyIf {c : Prop} [Decidable c] {body : CallM Unit} (h : c → Loud hushes False body) :
    Loud hushes False (onlyIf c body) := by
  unfold onlyIf
  split
  · rename_i hc
    exact h hc
  · exact loud_pure id

theorem loud_reportNoMemory (e : Errno) (text : String) :
    Loud hushes False (reportNoMemory e text) :=
  loud_onlyIf fun _ => loud_report e.code_ne

/-! ## Quiet programs -/

/-- The program reports nothing; its failures are those of the calls in `S`, and show in the
result. -/
def Quiet (S : BackupCall → Bool) (fails : α → Prop) (p : CallM α) : Prop :=
  ∀ s, All managerHandler p s fun es x s' =>
    s'.error = s.error ∧
      (∀ e ∈ es, ¬ FstatFailed e ∧ (Failed e → ∃ c, e.1 = .backup c ∧ S c = true)) ∧
      ∀ a, x = .ok a → (∃ e ∈ es, Failed e) → fails a

variable {S : BackupCall → Bool} {fails : α → Prop}

theorem quiet_pure {a : α} : Quiet S fails (pure a : CallM α) :=
  fun _ => ⟨rfl, by simp, by simp⟩

theorem quiet_fail (e : Fault) : Quiet S fails (fail e : CallM α) :=
  fun _ => ⟨rfl, by simp, by simp⟩

theorem quiet_step {o : Op} {fails : β → Prop} {f : o.Answer → CallM β} (ho : o.plain = true)
    (hf : ∀ r, Quiet S fails (f r)) : Quiet S fails (call o >>= f) := by
  intro s
  rw [call_bind, all_step]
  have hsame : ∀ r, (Op.next o s r).error = s.error := next_error (plain_mute ho) s
  split
  · rename_i r hr
    exact (hf r _).mono fun es x s' ⟨hm, hs, ht⟩ => ⟨hm.trans (hsame r), hs, ht⟩
  · intro r _
    obtain ⟨hfail, hfstat⟩ := plain_not_failed ho r
    refine (hf r _).mono fun es x s' ⟨hm, hs, ht⟩ =>
      ⟨hm.trans (hsame r), ?_, fun a ha h => ht a ha ?_⟩
    · rw [List.forall_mem_cons]
      exact ⟨⟨hfstat, fun h => absurd h hfail⟩, hs⟩
    · rw [List.exists_mem_cons_iff] at h
      exact h.resolve_left hfail

/-- After a failed call everything that follows shows the failure. -/
theorem quiet_backup {c : BackupCall} {fails : β → Prop} {f : Except Errno Nat → CallM β}
    (hc : S c = true) (hf : ∀ r : Except Errno Nat, Quiet S fails (f r))
    (hfailed : ∀ r : Except Errno Nat, Failed ⟨.backup c, r⟩ → ∃ b, f r = pure b ∧ fails b) :
    Quiet S fails (backup c >>= f) := by
  intro s
  refine all_answer rfl fun (r : Except Errno Nat) _ => ?_
  have hsame : (Op.next (.backup c) s r).error = s.error := after_error s r
  by_cases hr : Failed ⟨.backup c, r⟩
  · obtain ⟨b, hb, hfails⟩ := hfailed r hr
    change All managerHandler (f r) _ _
    rw [hb]
    refine ⟨hsame, ?_, fun a ha _ => ?_⟩
    · rw [List.forall_mem_cons]
      exact ⟨⟨id, fun _ => ⟨c, rfl, hc⟩⟩, by simp⟩
    · cases ha
      exact hfails
  · refine (hf r _).mono fun es x s' ⟨hm, hs, ht⟩ => ⟨hm.trans hsame, ?_, fun a ha h => ht a ha ?_⟩
    · rw [List.forall_mem_cons]
      exact ⟨⟨id, fun _ => ⟨c, rfl, hc⟩⟩, hs⟩
    · rw [List.exists_mem_cons_iff] at h
      exact h.resolve_left hr

/-- A part that cannot fail, before a quiet one. -/
theorem quiet_bind {fails : β → Prop} {p : CallM α} {f : α → CallM β}
    (hp : Quiet S (fun _ => False) p) (hf : ∀ a, Quiet S fails (f a)) :
    Quiet S fails (p >>= f) := by
  intro s
  refine (hp s).bind (fun es e s' h => ⟨h.1, h.2.1, fun a ha => by cases ha⟩) ?_
  intro es a s' ⟨hm, hk, ht⟩
  refine (hf a s').mono fun es' y s'' ⟨hm', hk', ht'⟩ =>
    ⟨hm'.trans hm, ?_, fun b hb h => ht' b hb ?_⟩
  · rw [List.forall_mem_append]
    exact ⟨hk, hk'⟩
  · obtain ⟨e, he, hfail⟩ := h
    rcases List.mem_append.mp he with he | he
    · exact absurd ⟨e, he, hfail⟩ (ht a rfl)
    · exact ⟨e, he, hfail⟩

/-- A part whose failure shows, before one that keeps showing it. -/
theorem quiet_bind_fails {fails' : β → Prop} {p : CallM α} {f : α → CallM β}
    (hp : Quiet S fails p) (hf : ∀ a, Quiet S fails' (f a))
    (hfails : ∀ a, fails a → ∃ b, f a = pure b ∧ fails' b) : Quiet S fails' (p >>= f) := by
  intro s
  refine (hp s).bind (fun es e s' h => ⟨h.1, h.2.1, fun a ha => by cases ha⟩) ?_
  intro es a s' ⟨hm, hk, ht⟩
  by_cases ha : ∃ e ∈ es, Failed e
  · obtain ⟨b, hb, hfb⟩ := hfails a (ht a rfl ha)
    rw [hb]
    refine ⟨hm, by simpa using hk, fun b' hb' _ => ?_⟩
    cases hb'
    exact hfb
  · refine (hf a s').mono fun es' y s'' ⟨hm', hk', ht'⟩ =>
      ⟨hm'.trans hm, ?_, fun b hb h => ht' b hb ?_⟩
    · rw [List.forall_mem_append]
      exact ⟨hk, hk'⟩
    · obtain ⟨e, he, hfail⟩ := h
      rcases List.mem_append.mp he with he | he
      · exact absurd ⟨e, he, hfail⟩ ha
      · exact ⟨e, he, hfail⟩

/-- A quiet part, whose result shows what there is to report. -/
theorem loud_quiet_bind {p : CallM α} {f : α → CallM β} (hp : Quiet S fails p)
    (hS : ∀ c, S c = true → hushes c = false) (hf : ∀ a, Loud hushes (q ∨ fails a) (f a)) :
    Loud hushes q (p >>= f) := by
  have hclean : ∀ es : List Event,
      (∀ e ∈ es, ¬ FstatFailed e ∧ (Failed e → ∃ c, e.1 = .backup c ∧ S c = true)) →
      ∀ e ∈ es, Clean hushes e := by
    intro es hk e he
    refine ⟨fun ⟨hfail, c, hc, hh⟩ => ?_, (hk e he).1⟩
    obtain ⟨c', hc', hSc⟩ := (hk e he).2 hfail
    rw [hc, Op.backup.injEq] at hc'
    rw [hc', hS c' hSc] at hh
    cases hh
  intro s
  refine (hp s).bind (fun es e s' h => ⟨Or.inl h.1, hclean es h.2.1, fun a ha => by cases ha⟩) ?_
  intro es a s' ⟨hm, hk, ht⟩
  refine (hf a s').mono fun es' y s'' ⟨hm', hs', ht'⟩ =>
    ⟨Moves.trans (Or.inl hm) hm', ?_, fun b hb h => ht' b hb ?_⟩
  · rw [List.forall_mem_append]
    exact ⟨hclean es hk, hs'⟩
  · rcases h with h | ⟨e, he, hfail⟩
    · exact Or.inl (Or.inl h)
    · rcases List.mem_append.mp he with he | he
      · exact Or.inl (Or.inr (ht a rfl ⟨e, he, hfail⟩))
      · exact Or.inr ⟨e, he, hfail⟩

/-! ## Programs with hushed failures -/

/-- The program reports its failures, except for the hushed ones; after one of these it
reports nothing at all. -/
def Accounted (hushes : BackupCall → Bool) (p : CallM α) : Prop :=
  ∀ s, All managerHandler p s fun es x s' =>
    Moves s s' ∧ (∀ e ∈ es, ¬ FstatFailed e) ∧
      (∀ a, x = .ok a → (∀ e ∈ es, ¬ Silent hushes e) → (∃ e ∈ es, Failed e) → s'.error.isSome) ∧
      ((∃ e ∈ es, Silent hushes e) → s'.error = s.error)

theorem Loud.accounted {p : CallM α} (h : Loud hushes False p) : Accounted hushes p :=
  fun s => (h s).mono fun _ _ _ ⟨hm, hs, ht⟩ =>
    ⟨hm, fun e he => (hs e he).2, fun a ha _ hf => ht a ha (Or.inr hf),
      fun ⟨e, he, hsilent⟩ => absurd hsilent (hs e he).1⟩

/-- The program can neither fail nor report. -/
abbrev Mute (p : CallM α) : Prop := Quiet (fun _ => false) (fun _ => False) p

theorem mute_not_failed {es : List Event}
    (h : ∀ e ∈ es, ¬ FstatFailed e ∧ (Failed e → ∃ c, e.1 = .backup c ∧ false = true)) :
    ∀ e ∈ es, ¬ Failed e := by
  intro e he hfail
  obtain ⟨c, -, hc⟩ := (h e he).2 hfail
  cases hc

theorem accounted_mute_bind {p : CallM α} {f : α → CallM β} (hp : Mute p)
    (hf : ∀ a, Accounted hushes (f a)) : Accounted hushes (p >>= f) := by
  intro s
  refine (hp s).bind
    (fun es e s' h => ⟨Or.inl h.1, fun e he => (h.2.1 e he).1, by simp, fun _ => h.1⟩) ?_
  intro es a s' ⟨hm, hk, _⟩
  have hnot := mute_not_failed hk
  refine (hf a s').mono fun es' y s'' ⟨hm', hs', ht', hsame⟩ =>
    ⟨Moves.trans (Or.inl hm) hm', ?_, fun b hb hs h => ?_, fun h => ?_⟩
  · rw [List.forall_mem_append]
    exact ⟨fun e he => (hk e he).1, hs'⟩
  · rw [List.forall_mem_append] at hs
    obtain ⟨e, he, hfail⟩ := h
    exact ht' b hb hs.2 ⟨e, (List.mem_append.mp he).resolve_left fun he => hnot e he hfail, hfail⟩
  · obtain ⟨e, he, hsilent⟩ := h
    rw [← hm]
    exact hsame ⟨e, (List.mem_append.mp he).resolve_left fun he => hnot e he hsilent.1, hsilent⟩

theorem accounted_step {o : Op} {f : o.Answer → CallM β} (ho : o.plain = true)
    (hf : ∀ r, Accounted hushes (f r)) : Accounted hushes (call o >>= f) :=
  accounted_mute_bind (quiet_step (f := pure) ho fun _ => quiet_pure) hf

theorem accounted_bind_mute {p : CallM α} {f : α → CallM β} (hp : Accounted hushes p)
    (hf : ∀ a, Mute (f a)) : Accounted hushes (p >>= f) := by
  intro s
  refine (hp s).bind (fun es e s' h => ⟨h.1, h.2.1, by simp, h.2.2.2⟩) ?_
  intro es a s' ⟨hm, hk, ht, hsame⟩
  refine (hf a s').mono fun es' y s'' ⟨hm', hk', _⟩ => ?_
  have hnot := mute_not_failed hk'
  refine ⟨hm.trans (Or.inl hm'), ?_, fun b hb hs h => ?_, fun h => ?_⟩
  · rw [List.forall_mem_append]
    exact ⟨hk, fun e he => (hk' e he).1⟩
  · rw [List.forall_mem_append] at hs
    obtain ⟨e, he, hfail⟩ := h
    rw [hm']
    exact ht a rfl hs.1 ⟨e, (List.mem_append.mp he).resolve_right fun he => hnot e he hfail, hfail⟩
  · obtain ⟨e, he, hsilent⟩ := h
    rw [hm']
    exact hsame ⟨e, (List.mem_append.mp he).resolve_right fun he => hnot e he hsilent.1, hsilent⟩

/-- A part with hushed failures, after which nothing is reported when it fails. -/
theorem accounted_hushed {p : CallM α} {f : α → CallM β} (hp : Quiet S fails p)
    (hS : ∀ c, S c = true → hushes c = true) (hmute : ∀ a, fails a → Mute (f a))
    (hloud : ∀ a, ¬ fails a → Loud hushes False (f a)) : Accounted hushes (p >>= f) := by
  have hsilent : ∀ es : List Event,
      (∀ e ∈ es, ¬ FstatFailed e ∧ (Failed e → ∃ c, e.1 = .backup c ∧ S c = true)) →
      ∀ e ∈ es, Failed e → Silent hushes e := by
    intro es hk e he hfail
    obtain ⟨c, hc, hSc⟩ := (hk e he).2 hfail
    exact ⟨hfail, c, hc, hS c hSc⟩
  intro s
  refine (hp s).bind (fun es e s' h =>
    ⟨Or.inl h.1, fun e he => (h.2.1 e he).1, by simp, fun _ => h.1⟩) ?_
  intro es a s' ⟨hm, hk, ht⟩
  have hfstat : ∀ e ∈ es, ¬ FstatFailed e := fun e he => (hk e he).1
  by_cases ha : fails a
  · refine (hmute a ha s').mono fun es' y s'' ⟨hm', hk', _⟩ => ?_
    refine ⟨Or.inl (hm'.trans hm), ?_, fun b hb hs h => ?_, fun _ => hm'.trans hm⟩
    · rw [List.forall_mem_append]
      exact ⟨hfstat, fun e he => (hk' e he).1⟩
    · rw [List.forall_mem_append] at hs
      obtain ⟨e, he, hfail⟩ := h
      rcases List.mem_append.mp he with he | he
      · exact absurd (hsilent es hk e he hfail) (hs.1 e he)
      · exact absurd hfail (mute_not_failed hk' e he)
  · have hnone : ∀ e ∈ es, ¬ Failed e := fun e he hfail => ha (ht a rfl ⟨e, he, hfail⟩)
    refine (hloud a ha s').mono fun es' y s'' ⟨hm', hs', ht'⟩ => ?_
    refine ⟨Moves.trans (Or.inl hm) hm', ?_, fun b hb hs h => ?_, fun h => ?_⟩
    · rw [List.forall_mem_append]
      exact ⟨hfstat, fun e he => (hs' e he).2⟩
    · obtain ⟨e, he, hfail⟩ := h
      refine ht' b hb (Or.inr ⟨e, ?_, hfail⟩)
      exact (List.mem_append.mp he).resolve_left fun he => hnone e he hfail
    · obtain ⟨e, he, hsil⟩ := h
      rcases List.mem_append.mp he with he | he
      · exact absurd hsil.1 (hnone e he)
      · exact absurd hsil (hs' e he).1

end

end TokuBackup.Interpose
