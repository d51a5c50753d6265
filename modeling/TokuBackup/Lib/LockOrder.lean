import Mathlib.Data.Set.Basic
import Mathlib.Logic.Relation
import TokuBackup.Lib.Prog

/-!
# Lock orders

Locks of any kind, of which some exclude each other: mutexes, the two modes of a read-write
lock, ranges. A `LockOrder` ranks every lock twice, as one that is held and as one that is
waited for; these may differ, so that a lock's reader and its writer can stand at different
places. A lock that keeps out another has at most the rank of the wait.

* `no_deadlock` is the rule: if every thread waits below what it holds, no set of threads can
  block itself; by `waits_end`, a thread that waits then waits for one that does not.
* `Ordered` checks a list of lock operations, and `LockOrder.monitor` the operations of a
  program.
* `Disciplined` is the invariant of a thread that runs a program, and `heldBy` its locks among
  those of all threads.
-/

namespace TokuBackup.Lib

variable {L : Type}

/-- Which locks exclude each other, and their ranks. -/
structure LockOrder (L : Type) where
  /-- The first, when it is held, keeps the second from being taken. -/
  blocks : L → L → Prop
  heldRank : L → Nat
  wantedRank : L → Nat
  rank_le : ∀ held wanted, blocks held wanted → heldRank held ≤ wantedRank wanted

namespace LockOrder

variable (O : LockOrder L)

/-- Whoever holds the locks of the list may wait for `l`. -/
def Below (l : L) (held : List L) : Prop := ∀ h ∈ held, O.wantedRank l < O.heldRank h

/-- Each thread of the set waits for a lock that a thread of the set keeps from it. -/
def Deadlocked {ι : Type} (held : ι → List L) (wanted : ι → Option L) (D : Set ι) : Prop :=
  D.Nonempty ∧ ∀ t ∈ D, ∃ l, wanted t = some l ∧ ∃ t' ∈ D, ∃ h ∈ held t', O.blocks h l

/-- The ranks of the locks that the threads wait for fall along the waits. -/
theorem no_deadlock {ι : Type} {held : ι → List L} {wanted : ι → Option L}
    (hbelow : ∀ t l, wanted t = some l → O.Below l (held t)) (D : Set ι) :
    ¬ O.Deadlocked held wanted D := by
  rintro ⟨⟨t, ht⟩, hwaits⟩
  have hnone : ∀ n t l, t ∈ D → wanted t = some l → O.wantedRank l = n → False := by
    intro n
    induction n using Nat.strongRecOn with
    | ind n ih =>
      intro t l ht hl hn
      obtain ⟨l', hl', t', ht', h, hh, hblocks⟩ := hwaits t ht
      obtain rfl : l = l' := Option.some.inj (hl.symm.trans hl')
      obtain ⟨k, hk, _⟩ := hwaits t' ht'
      have hlt : O.wantedRank k < O.heldRank h := hbelow t' k hk h hh
      have hle : O.heldRank h ≤ O.wantedRank l := O.rank_le h l hblocks
      exact ih (O.wantedRank k) (by omega) t' k ht' hk rfl
  obtain ⟨l, hl, _⟩ := hwaits t ht
  exact hnone _ t l ht hl rfl

/-- The first thread waits for a lock that the second one keeps from it. -/
def WaitsFor {ι : Type} (held : ι → List L) (wanted : ι → Option L) (t t' : ι) : Prop :=
  ∃ l, wanted t = some l ∧ ∃ h ∈ held t', O.blocks h l

/-- From every thread the waits lead to one that does not wait. -/
theorem waits_end {ι : Type} {held : ι → List L} {wanted : ι → Option L}
    (hbelow : ∀ t l, wanted t = some l → O.Below l (held t)) (t : ι) :
    ∃ t', Relation.ReflTransGen (O.WaitsFor held wanted) t t' ∧
      ∀ u, ¬ O.WaitsFor held wanted t' u := by
  by_contra hno
  refine O.no_deadlock hbelow {t' | Relation.ReflTransGen (O.WaitsFor held wanted) t t'} ?_
  refine ⟨⟨t, Relation.ReflTransGen.refl⟩, fun t' ht' => ?_⟩
  by_contra hfree
  refine hno ⟨t', ht', fun u hu => hfree ?_⟩
  obtain ⟨l, hl, h, hh, hblocks⟩ := hu
  exact ⟨l, hl, u, ht'.tail ⟨l, hl, h, hh, hblocks⟩, h, hh, hblocks⟩

end LockOrder

/-! ## Lock operations -/

inductive LockEvent (L : Type) where
  | acquire (l : L)
  | release (l : L)
  deriving DecidableEq

/-- The locks that are held after the operation. -/
def LockEvent.after [DecidableEq L] (held : List L) : LockEvent L → List L
  | .acquire l => l :: held
  | .release l => held.erase l

def LockEvent.wanted : LockEvent L → Option L
  | .acquire l => some l
  | .release _ => none

namespace LockOrder

variable [DecidableEq L] (O : LockOrder L)

/-- Every lock that is taken is below the ones that are held then. -/
def Ordered : List L → List (LockEvent L) → Prop
  | _, [] => True
  | held, e :: es => (∀ l, e.wanted = some l → O.Below l held) ∧ Ordered (e.after held) es

/-- The lock operations of a program, which `events` says for each of its operations. -/
def monitor {Op : Type} (Answer : Op → Type) (events : Op → List (LockEvent L)) :
    Monitor Answer (List L) where
  permits o held := O.Ordered held (events o)
  next o held _ := (events o).foldl LockEvent.after held

end LockOrder

/-! ## Programs -/

section

variable [DecidableEq L] {O : LockOrder L} {Op : Type} {Answer : Op → Type}
  {events : Op → List (LockEvent L)} {ε α β : Type} {held : List L} {b : Nat} {o : Op}

open Prog

/-- The program waits only for locks of a rank below `b`, and gives them back: whoever holds
locks from `b` on can run it. -/
def Brief (O : LockOrder L) (events : Op → List (LockEvent L)) (b : Nat)
    (p : Prog Answer ε α) : Prop :=
  ∀ held : List L, (∀ h ∈ held, b ≤ O.heldRank h) →
    Obeys (O.monitor Answer events) p held fun _ held' => held' = held

variable {p : Prog Answer ε α}

theorem brief_pure (a : α) : Brief O events b (pure a : Prog Answer ε α) := fun _ _ => rfl

theorem brief_fail (e : ε) : Brief O events b (fail e : Prog Answer ε α) := fun _ _ => trivial

theorem Brief.mono {b' : Nat} (h : Brief O events b p) (hb : b ≤ b') : Brief O events b' p :=
  fun held hheld => h held fun l hl => hb.trans (hheld l hl)

theorem Brief.bind {f : α → Prog Answer ε β} (h : Brief O events b p)
    (hf : ∀ a, Brief O events b (f a)) : Brief O events b (p >>= f) := by
  intro held hheld
  refine Obeys.bind (h held hheld) fun a held' heq => ?_
  rw [heq]
  exact hf a held hheld

/-- An operation without locks. -/
theorem brief_call {f : Answer o → Prog Answer ε β} (ho : events o = [])
    (hf : ∀ r, Brief O events b (f r)) : Brief O events b (call o >>= f) := by
  intro held hheld
  refine obeys_call ?_ fun r => ?_
  · change O.Ordered held (events o)
    rw [ho]
    trivial
  · change Obeys _ _ ((events o).foldl LockEvent.after held) _
    rw [ho]
    exact hf r held hheld

theorem brief_last (ho : events o = []) :
    Brief O events b (call o : Prog Answer ε (Answer o)) :=
  brief_call ho fun r => brief_pure r

/-- An operation that takes a lock and gives it back. -/
theorem brief_momentary {f : Answer o → Prog Answer ε β} {l : L}
    (ho : events o = [.acquire l, .release l]) (hl : O.wantedRank l < b)
    (hf : ∀ r, Brief O events b (f r)) : Brief O events b (call o >>= f) := by
  intro held hheld
  refine obeys_call ?_ fun r => ?_
  · change O.Ordered held (events o)
    rw [ho]
    refine ⟨fun k hk h hh => ?_, fun k hk => ?_, trivial⟩
    · cases hk
      exact hl.trans_le (hheld h hh)
    · cases hk
  · change Obeys _ _ ((events o).foldl LockEvent.after held) _
    rw [ho]
    have hback : [LockEvent.acquire l, LockEvent.release l].foldl LockEvent.after held = held :=
      List.erase_cons_head l held
    rw [hback]
    exact hf r held hheld

/-- Take a lock. -/
theorem obeys_acquire {f : Answer o → Prog Answer ε β} {l : L} {Q : β → List L → Prop}
    (ho : events o = [.acquire l]) (hl : O.Below l held)
    (hf : ∀ r, Obeys (O.monitor Answer events) (f r) (l :: held) Q) :
    Obeys (O.monitor Answer events) (call o >>= f) held Q := by
  refine obeys_call ?_ fun r => ?_
  · change O.Ordered held (events o)
    rw [ho]
    refine ⟨fun k hk => ?_, trivial⟩
    cases hk
    exact hl
  · change Obeys _ _ ((events o).foldl LockEvent.after held) _
    rw [ho]
    exact hf r

/-- Give a lock back. -/
theorem obeys_release {f : Answer o → Prog Answer ε β} {l : L} {Q : β → List L → Prop}
    (ho : events o = [.release l])
    (hf : ∀ r, Obeys (O.monitor Answer events) (f r) (held.erase l) Q) :
    Obeys (O.monitor Answer events) (call o >>= f) held Q := by
  refine obeys_call ?_ fun r => ?_
  · change O.Ordered held (events o)
    rw [ho]
    refine ⟨fun k hk => ?_, trivial⟩
    cases hk
  · change Obeys _ _ ((events o).foldl LockEvent.after held) _
    rw [ho]
    exact hf r

/-- Give the last lock back. -/
theorem obeys_release_head {f : Answer o → Prog Answer ε β} {l : L} {Q : β → List L → Prop}
    (ho : events o = [.release l]) (hf : ∀ r, Obeys (O.monitor Answer events) (f r) held Q) :
    Obeys (O.monitor Answer events) (call o >>= f) (l :: held) Q := by
  refine obeys_release ho fun r => ?_
  rw [List.erase_cons_head]
  exact hf r

theorem obeys_release_last {l : L} (ho : events o = [.release l]) :
    Obeys (O.monitor Answer events) (call o : Prog Answer ε (Answer o)) (l :: held)
      fun _ held' => held' = held :=
  obeys_release_head ho fun _ => rfl

/-- A lock that is held around the rest of a program, which gives it back. -/
theorem brief_lock {f : Answer o → Prog Answer ε β} {l : L} (ho : events o = [.acquire l])
    (hl : O.wantedRank l < b)
    (hf : ∀ r held, (∀ h ∈ held, b ≤ O.heldRank h) →
      Obeys (O.monitor Answer events) (f r) (l :: held) fun _ held' => held' = held) :
    Brief O events b (call o >>= f) := by
  intro held hheld
  exact obeys_acquire ho (fun h hh => hl.trans_le (hheld h hh)) fun r => hf r held hheld

omit [DecidableEq L] in
/-- A lock and the ones above it. -/
theorem above_cons {l : L} {m n : Nat} (hl : n ≤ O.heldRank l)
    (hheld : ∀ h ∈ held, m ≤ O.heldRank h) (hm : n ≤ m) : ∀ h ∈ l :: held, n ≤ O.heldRank h :=
  List.forall_mem_cons.mpr ⟨hl, fun h hh => hm.trans (hheld h hh)⟩

/-- A program that is run with `held`, and the rest after it. -/
theorem Brief.obeys {f : α → Prog Answer ε β} {Q : β → List L → Prop} (h : Brief O events b p)
    (hheld : ∀ l ∈ held, b ≤ O.heldRank l)
    (hf : ∀ a, Obeys (O.monitor Answer events) (f a) held Q) :
    Obeys (O.monitor Answer events) (p >>= f) held Q :=
  Obeys.bind (h held hheld) fun a held' heq => by
    subst heq
    exact hf a

/-- An operation without locks. -/
theorem obeys_free {f : Answer o → Prog Answer ε β} {Q : β → List L → Prop} (ho : events o = [])
    (hf : ∀ r, Obeys (O.monitor Answer events) (f r) held Q) :
    Obeys (O.monitor Answer events) (call o >>= f) held Q :=
  (brief_last ho).obeys (fun _ _ => Nat.zero_le _) hf

/-! ## Threads -/

/-- A thread that has `pending` left of its last operation, and `p` after it, and holds `held`:
it waits in order, and holds nothing at the end. -/
def Disciplined (O : LockOrder L) (events : Op → List (LockEvent L)) (p : Prog Answer ε α)
    (pending : List (LockEvent L)) (held : List L) : Prop :=
  O.Ordered held pending ∧
    Obeys (O.monitor Answer events) p (pending.foldl LockEvent.after held) fun _ held' => held' = []

theorem disciplined_start (h : Brief O events b p) : Disciplined O events p [] [] :=
  ⟨trivial, h [] fun _ hl => by cases hl⟩

theorem Disciplined.perform {k : Answer o → Prog Answer ε α}
    (h : Disciplined O events (step o k) [] held) (r : Answer o) :
    Disciplined O events (k r) (events o) held :=
  ⟨h.2.1, h.2.2 r⟩

theorem Disciplined.advance {e : LockEvent L} {es : List (LockEvent L)}
    (h : Disciplined O events p (e :: es) held) : Disciplined O events p es (e.after held) :=
  ⟨h.1.2, h.2⟩

theorem Disciplined.below {pending : List (LockEvent L)} {l : L}
    (h : Disciplined O events p pending held)
    (hl : pending.head?.bind LockEvent.wanted = some l) : O.Below l held := by
  cases pending with
  | nil => cases hl
  | cons e es => exact h.1.1 l hl

/-- A thread whose program has returned. -/
theorem Disciplined.returned {a : α} (h : Disciplined O events (pure a : Prog Answer ε α) [] held) :
    held = [] :=
  h.2

end

section

variable [DecidableEq L] {ι : Type} [DecidableEq ι]

/-- The locks of one owner. -/
def heldBy (locks : List (ι × L)) (t : ι) : List L :=
  locks.filterMap fun o => if o.1 = t then some o.2 else none

/-- An operation, in a record of all locks with their owners. -/
def LockEvent.record (t : ι) (locks : List (ι × L)) : LockEvent L → List (ι × L)
  | .acquire l => (t, l) :: locks
  | .release l => locks.erase (t, l)

omit [DecidableEq L] in
theorem heldBy_cons (o : ι × L) (locks : List (ι × L)) (u : ι) :
    heldBy (o :: locks) u = if o.1 = u then o.2 :: heldBy locks u else heldBy locks u := by
  unfold heldBy
  rw [List.filterMap_cons]
  by_cases h : o.1 = u
  · rw [if_pos h, if_pos h]
  · rw [if_neg h, if_neg h]

theorem heldBy_erase (t u : ι) (l : L) (locks : List (ι × L)) :
    heldBy (locks.erase (t, l)) u =
      if u = t then (heldBy locks u).erase l else heldBy locks u := by
  induction locks with
  | nil => simp [heldBy]
  | cons o locks ih =>
    by_cases ho : o = (t, l)
    · rw [ho, List.erase_cons_head, heldBy_cons]
      by_cases hu : u = t
      · rw [if_pos hu, if_pos hu.symm, List.erase_cons_head]
      · rw [if_neg hu, if_neg (Ne.symm hu)]
    · rw [List.erase_cons_tail (by simpa using ho), heldBy_cons, ih, heldBy_cons]
      by_cases hu : u = t
      · rw [if_pos hu, if_pos hu]
        by_cases hown : o.1 = u
        · have hl : o.2 ≠ l := fun hl => ho (Prod.ext (hown.trans hu) hl)
          rw [if_pos hown, if_pos hown, List.erase_cons_tail (by simpa using hl)]
        · rw [if_neg hown, if_neg hown]
      · rw [if_neg hu, if_neg hu]

omit [DecidableEq L] in
theorem mem_heldBy {locks : List (ι × L)} {t : ι} {l : L} :
    l ∈ heldBy locks t ↔ (t, l) ∈ locks := by
  rw [heldBy, List.mem_filterMap]
  constructor
  · rintro ⟨o, ho, hl⟩
    obtain ⟨hown, hl⟩ := Option.ite_none_right_eq_some.mp hl
    rw [← hown, ← Option.some.inj hl]
    exact ho
  · intro h
    exact ⟨(t, l), h, if_pos rfl⟩

/-- Each owner's locks change with its own operations only. -/
theorem heldBy_record (t u : ι) (locks : List (ι × L)) (e : LockEvent L) :
    heldBy (e.record t locks) u = if u = t then e.after (heldBy locks u) else heldBy locks u := by
  cases e with
  | acquire l =>
    rw [LockEvent.record, heldBy_cons]
    by_cases hu : u = t
    · rw [if_pos hu, if_pos hu.symm]
      rfl
    · rw [if_neg hu, if_neg (Ne.symm hu)]
  | release l => exact heldBy_erase t u l locks

end

end TokuBackup.Lib
