import TokuBackup.Lib.Machine
import Mathlib.Data.List.Basic

/-!
# The pointers to the real system calls

Each pointer of `real_syscalls` is null at first. `dlsym_set` looks the function up and stores it
before the pointer is used the first time: it looks at the pointer without `dlsym_mutex`, and once
more when it has the mutex. Then `call_real_...` calls the function of the pointer, and
`register_...` puts another one in its place and returns the old one.

For the threads it is as if the pointer had held the function from the start: no thread calls a
null pointer, and no registration is lost to a lookup that has begun before it. The threads do
one access of the pointer or of the mutex at a time.
-/

namespace TokuBackup.RealSyscalls

open Lib

variable {ι F : Type}

/-! ## The lazy pointer -/

inductive Operation (F : Type) where
  /-- `call_real_...` -/
  | call
  /-- `register_...(f)` -/
  | register (f : F)

/-- What a thread does next. -/
inductive Pc (F : Type) where
  | idle
  /-- `if (*ptr==NULL)`, without the mutex -/
  | check (op : Operation F)
  /-- `pmutex_lock(&dlsym_mutex)` -/
  | lock (op : Operation F)
  /-- `if (*ptr==NULL)`, with the mutex -/
  | checkAgain (op : Operation F)
  /-- `dlsym(RTLD_NEXT, name)` -/
  | lookup (op : Operation F)
  /-- `__sync_bool_compare_and_swap(ptr, NULL, ptr_local)` -/
  | compareAndSwap (op : Operation F) (ptr_local : Option F)
  /-- `pmutex_unlock(&dlsym_mutex)` -/
  | unlock (op : Operation F)
  /-- `dlsym_set` has returned. -/
  | ready (op : Operation F)
  /-- `register_...` has read the old function `r`. -/
  | store (f : F) (r : Option F)

/-- What a thread has done with the pointer: it has called the function, or has put `f` in the
place of `r`. -/
inductive Event (ι F : Type) where
  | called (p : ι) (f : Option F)
  | registered (p : ι) (f : F) (r : Option F)
  deriving DecidableEq

structure State (ι F : Type) where
  ptr : Option F
  dlsym_mutex : Option ι
  pc : ι → Pc F
  /-- How often `dlsym` has been called. -/
  lookups : Nat
  /-- A null pointer has been called. -/
  fault : Bool
  events : List (Event ι F)

inductive Action (ι F : Type) where
  | begin (p : ι) (op : Operation F)
  | go (p : ι)

def start : State ι F := ⟨none, none, fun _ => .idle, 0, false, []⟩

section

variable [DecidableEq ι]

def State.goto (s : State ι F) (p : ι) (pc : Pc F) : State ι F :=
  { s with pc := Function.update s.pc p pc }

/-- The next access of a thread; `dlsym` is what the lookup returns. -/
def stepGo (dlsym : Option F) (s : State ι F) (p : ι) : Option (State ι F) :=
  match s.pc p with
  | .idle => none
  | .check op => some (s.goto p (if s.ptr.isNone then .lock op else .ready op))
  | .lock op =>
    match s.dlsym_mutex with
    | none => some { s.goto p (.checkAgain op) with dlsym_mutex := some p }
    | some _ => none
  | .checkAgain op => some (s.goto p (if s.ptr.isNone then .lookup op else .unlock op))
  | .lookup op => some { s.goto p (.compareAndSwap op dlsym) with lookups := s.lookups + 1 }
  | .compareAndSwap op ptr_local =>
    some { s.goto p (.unlock op) with ptr := if s.ptr.isNone then ptr_local else s.ptr }
  | .unlock op => some { s.goto p (.ready op) with dlsym_mutex := none }
  | .ready .call =>
    some { s.goto p .idle with fault := s.ptr.isNone, events := s.events ++ [.called p s.ptr] }
  | .ready (.register f) => some (s.goto p (.store f s.ptr))
  | .store f r =>
    some { s.goto p .idle with ptr := some f, events := s.events ++ [.registered p f r] }

def step (dlsym : Option F) (s : State ι F) : Action ι F → Option (State ι F)
  | .begin p op =>
    match s.pc p, s.fault with
    | .idle, false => some (s.goto p (.check op))
    | _, _ => none
  | .go p => if s.fault then none else stepGo dlsym s p

end

/-! ## The eager pointer -/

inductive EagerPc (F : Type) where
  | idle
  | ready (op : Operation F)
  | store (f r : F)

/-- A pointer that holds a function from the start. -/
structure Eager (ι F : Type) where
  ptr : F
  pc : ι → EagerPc F
  events : List (Event ι F)

def eagerStart (f : F) : Eager ι F := ⟨f, fun _ => .idle, []⟩

section

variable [DecidableEq ι]

def Eager.goto (s : Eager ι F) (p : ι) (pc : EagerPc F) : Eager ι F :=
  { s with pc := Function.update s.pc p pc }

def eagerStep (s : Eager ι F) : Action ι F → Option (Eager ι F)
  | .begin p op =>
    match s.pc p with
    | .idle => some (s.goto p (.ready op))
    | _ => none
  | .go p =>
    match s.pc p with
    | .idle => none
    | .ready .call => some { s.goto p .idle with events := s.events ++ [.called p (some s.ptr)] }
    | .ready (.register f) => some (s.goto p (.store f s.ptr))
    | .store f r =>
      some { s.goto p .idle with ptr := f, events := s.events ++ [.registered p f (some r)] }

end

/-! ## The invariant -/

/-- What the eager pointer's thread does while a thread does this; `g` is what is looked up. -/
def Pc.eager (g : F) : Pc F → EagerPc F
  | .idle => .idle
  | .check op => .ready op
  | .lock op => .ready op
  | .checkAgain op => .ready op
  | .lookup op => .ready op
  | .compareAndSwap op _ => .ready op
  | .unlock op => .ready op
  | .ready op => .ready op
  | .store f r => .store f (r.getD g)

def State.eager (g : F) (s : State ι F) : Eager ι F where
  ptr := s.ptr.getD g
  pc p := (s.pc p).eager g
  events := s.events

/-- Whether the thread is between `pmutex_lock` and `pmutex_unlock`. -/
def Pc.inside : Pc F → Bool
  | .checkAgain _ => true
  | .lookup _ => true
  | .compareAndSwap _ _ => true
  | .unlock _ => true
  | _ => false

/-- Whether the thread has seen that the pointer is null, and nobody else can set it. -/
def Pc.setting : Pc F → Bool
  | .lookup _ => true
  | .compareAndSwap _ _ => true
  | _ => false

/-- Whether the thread has looked the function up and not stored it. -/
def Pc.lookedUp : Pc F → Bool
  | .compareAndSwap _ _ => true
  | _ => false

/-- Whether the thread relies on the pointer. -/
def Pc.relies : Pc F → Bool
  | .unlock _ => true
  | .ready _ => true
  | .store _ _ => true
  | _ => false

/-- What a thread knows of `g`. -/
def Pc.Knows (g : F) : Pc F → Prop
  | .compareAndSwap _ ptr_local => ptr_local = some g
  | .store _ r => r.isSome
  | _ => True

structure Inv (g : F) (s : State ι F) : Prop where
  exclusive : ∀ p, (s.pc p).inside = true ↔ s.dlsym_mutex = some p
  setting : ∀ p, (s.pc p).setting = true → s.ptr = none
  relies : ∀ p, (s.pc p).relies = true → s.ptr.isSome = true
  knows : ∀ p, (s.pc p).Knows g
  lookups_le : s.lookups ≤ 1
  /-- A lookup leads to a function in the pointer. -/
  lookups_zero : s.ptr = none → (∀ p, (s.pc p).lookedUp = false) → s.lookups = 0
  fault : s.fault = false

theorem inv_start (g : F) : Inv g (start : State ι F) where
  exclusive _ := by simp [start, Pc.inside]
  setting _ h := by cases h
  relies _ h := by cases h
  knows _ := trivial
  lookups_le := Nat.zero_le _
  lookups_zero _ _ := rfl
  fault := rfl

theorem Pc.inside_of_setting {pc : Pc F} (h : pc.setting = true) : pc.inside = true := by
  cases pc <;> first | rfl | cases h

theorem Pc.setting_of_lookedUp {pc : Pc F} (h : pc.lookedUp = true) : pc.setting = true := by
  cases pc <;> first | rfl | cases h

variable {g : F} {s s' : State ι F} {p : ι} {pc : Pc F}

/-- Two threads are not both inside. -/
theorem Inv.unique (h : Inv g s) {q : ι} (hp : (s.pc p).inside = true)
    (hq : (s.pc q).inside = true) : q = p := by
  rw [h.exclusive] at hp hq
  rw [hp] at hq
  exact (Option.some.inj hq).symm

/-- Nobody sets the pointer any more once a thread has relied on it. -/
theorem Inv.not_setting (h : Inv g s) (hp : (s.pc p).relies = true) (q : ι) :
    (s.pc q).setting = false := by
  have hsome := h.relies p hp
  cases hq : (s.pc q).setting with
  | false => rfl
  | true =>
    rw [h.setting q hq] at hsome
    cases hsome

section

variable [DecidableEq ι]

theorem forall_goto {P : ι → Pc F → Prop} (hp : P p pc)
    (hother : ∀ q, q ≠ p → P q (s.pc q)) (q : ι) :
    P q ((s.goto p pc).pc q) := by
  change P q (Function.update s.pc p pc q)
  by_cases hq : q = p
  · subst hq
    rw [Function.update_self]
    exact hp
  · rw [Function.update_of_ne hq]
    exact hother q hq

/-- A thread goes on, and changes nothing that others see. -/
theorem Inv.goto (h : Inv g s) (hinside : pc.inside = (s.pc p).inside)
    (hlookedUp : pc.lookedUp = (s.pc p).lookedUp) (hsetting : pc.setting = true → s.ptr = none)
    (hrelies : pc.relies = true → s.ptr.isSome = true) (hknows : pc.Knows g) :
    Inv g (s.goto p pc) where
  exclusive := forall_goto (P := fun q pc => pc.inside = true ↔ s.dlsym_mutex = some q)
    (hinside ▸ h.exclusive p) fun q _ => h.exclusive q
  setting := forall_goto (P := fun _ pc => pc.setting = true → s.ptr = none) hsetting
    fun q _ => h.setting q
  relies := forall_goto (P := fun _ pc => pc.relies = true → s.ptr.isSome = true) hrelies
    fun q _ => h.relies q
  knows := forall_goto (P := fun _ pc => pc.Knows g) hknows fun q _ => h.knows q
  lookups_le := h.lookups_le
  lookups_zero hnone hall := by
    refine h.lookups_zero hnone fun q => ?_
    have hq := hall q
    change (Function.update s.pc p pc q).lookedUp = false at hq
    by_cases hqp : q = p
    · subst hqp
      rwa [Function.update_self, hlookedUp] at hq
    · rwa [Function.update_of_ne hqp] at hq
  fault := h.fault

/-- A thread goes on, and the pointer has a function now. -/
theorem Inv.set (h : Inv g s) {f : F} {events : List (Event ι F)}
    (hinside : pc.inside = (s.pc p).inside)
    (hother : ∀ q, q ≠ p → (s.pc q).setting = false) (hsetting : pc.setting = false)
    (hknows : pc.Knows g) :
    Inv g { s.goto p pc with ptr := some f, events := events } where
  exclusive := forall_goto (P := fun q pc => pc.inside = true ↔ s.dlsym_mutex = some q)
    (hinside ▸ h.exclusive p) fun q _ => h.exclusive q
  setting q hq := by
    have hno := forall_goto (P := fun _ pc => pc.setting = false) hsetting hother q
    rw [hno] at hq
    cases hq
  relies _ _ := rfl
  knows := forall_goto (P := fun _ pc => pc.Knows g) hknows fun q _ => h.knows q
  lookups_le := h.lookups_le
  lookups_zero hnone := by cases hnone
  fault := h.fault

/-- A thread that does not set the pointer takes the mutex or gives it back. -/
theorem Inv.handOver (h : Inv g s) {mutex : Option ι} (hself : pc.inside = true ↔ mutex = some p)
    (hother : ∀ q, q ≠ p → (s.dlsym_mutex = some q ↔ mutex = some q))
    (hold : (s.pc p).lookedUp = false) (hnew : pc.setting = false)
    (hrelies : pc.relies = true → s.ptr.isSome = true) (hknows : pc.Knows g) :
    Inv g { s.goto p pc with dlsym_mutex := mutex } where
  exclusive := forall_goto (P := fun q pc => pc.inside = true ↔ mutex = some q) hself
    fun q hq => (h.exclusive q).trans (hother q hq)
  setting := forall_goto (P := fun _ pc => pc.setting = true → s.ptr = none)
    (fun hp => by rw [hnew] at hp; cases hp) fun q _ => h.setting q
  relies := forall_goto (P := fun _ pc => pc.relies = true → s.ptr.isSome = true) hrelies
    fun q _ => h.relies q
  knows := forall_goto (P := fun _ pc => pc.Knows g) hknows fun q _ => h.knows q
  lookups_le := h.lookups_le
  lookups_zero hnone hall := by
    refine h.lookups_zero hnone fun q => ?_
    by_cases hqp : q = p
    · rw [hqp, hold]
    · have hq := hall q
      change (Function.update s.pc p pc q).lookedUp = false at hq
      rwa [Function.update_of_ne hqp] at hq
  fault := h.fault

/-- The function is looked up by one thread only. -/
theorem Inv.lookup (h : Inv g s) {op : Operation F} (hpc : s.pc p = .lookup op) :
    Inv g { s.goto p (.compareAndSwap op (some g)) with lookups := s.lookups + 1 } := by
  have hnone : s.ptr = none := h.setting p (by rw [hpc]; rfl)
  have hzero : s.lookups = 0 := by
    refine h.lookups_zero hnone fun q => ?_
    cases hq : (s.pc q).lookedUp with
    | false => rfl
    | true =>
      have hsame := h.unique (p := p) (by rw [hpc]; rfl)
        (Pc.inside_of_setting (Pc.setting_of_lookedUp hq))
      rw [hsame, hpc] at hq
      cases hq
  refine ⟨?_, ?_, ?_, ?_, ?_, ?_, h.fault⟩
  · exact forall_goto (P := fun q pc => pc.inside = true ↔ s.dlsym_mutex = some q)
      (by rw [← h.exclusive, hpc]; rfl) fun q _ => h.exclusive q
  · exact fun _ _ => hnone
  · exact forall_goto (P := fun _ pc => pc.relies = true → s.ptr.isSome = true)
      (fun hp => by cases hp) fun q _ => h.relies q
  · exact forall_goto (P := fun _ pc => pc.Knows g) rfl fun q _ => h.knows q
  · change s.lookups + 1 ≤ 1
    omega
  · intro _ hall
    have hp := hall p
    change (Function.update s.pc p _ p).lookedUp = false at hp
    rw [Function.update_self] at hp
    cases hp

/-! ## The refinement -/

theorem eager_goto (s : State ι F) (p : ι) (pc : Pc F) :
    (s.goto p pc).eager g = (s.eager g).goto p (pc.eager g) := by
  have hpc : (fun q => (Function.update s.pc p pc q).eager g) =
      Function.update (fun q => (s.pc q).eager g) p (pc.eager g) := by
    funext q
    by_cases hq : q = p
    · subst hq
      rw [Function.update_self, Function.update_self]
    · rw [Function.update_of_ne hq, Function.update_of_ne hq]
  simp only [State.eager, State.goto, Eager.goto, hpc]

/-- A step inside `dlsym_set` is none of the eager pointer. -/
theorem eager_goto_same (pc : Pc F) (hpc : pc.eager g = (s.pc p).eager g) :
    (s.goto p pc).eager g = s.eager g := by
  rw [eager_goto, hpc]
  have hsame : Function.update (s.eager g).pc p ((s.pc p).eager g) = (s.eager g).pc :=
    Function.update_eq_self p (s.eager g).pc
  simp only [Eager.goto, hsame]

theorem inv_check (h : Inv g s) {op : Operation F} (hpc : s.pc p = .check op) :
    Inv g (s.goto p (if s.ptr.isNone then .lock op else .ready op)) := by
  split
  · exact h.goto (by rw [hpc]; rfl) (by rw [hpc]; rfl) (fun hp => by cases hp)
      (fun hp => by cases hp) trivial
  · rename_i hsome
    exact h.goto (by rw [hpc]; rfl) (by rw [hpc]; rfl) (fun hp => by cases hp)
      (fun _ => Option.isSome_iff_ne_none.mpr (by simpa using hsome)) trivial

theorem inv_checkAgain (h : Inv g s) {op : Operation F} (hpc : s.pc p = .checkAgain op) :
    Inv g (s.goto p (if s.ptr.isNone then .lookup op else .unlock op)) := by
  split
  · rename_i hnone
    exact h.goto (by rw [hpc]; rfl) (by rw [hpc]; rfl) (fun _ => by simpa using hnone)
      (fun hp => by cases hp) trivial
  · rename_i hsome
    exact h.goto (by rw [hpc]; rfl) (by rw [hpc]; rfl) (fun hp => by cases hp)
      (fun _ => Option.isSome_iff_ne_none.mpr (by simpa using hsome)) trivial

theorem inv_begin (h : Inv g s) (op : Operation F) (hpc : s.pc p = .idle) :
    Inv g (s.goto p (.check op)) :=
  h.goto (by rw [hpc]; rfl) (by rw [hpc]; rfl) (fun hp => by cases hp)
    (fun hp => by cases hp) trivial

/-- The thread takes the free mutex. -/
theorem inv_lock (h : Inv g s) {op : Operation F} (hpc : s.pc p = .lock op)
    (hfree : s.dlsym_mutex = none) :
    Inv g { s.goto p (.checkAgain op) with dlsym_mutex := some p } := by
  apply h.handOver
  · exact iff_of_true rfl rfl
  · intro q hq
    rw [hfree]
    exact iff_of_false (by simp) (by simpa using Ne.symm hq)
  · rw [hpc]
    rfl
  · rfl
  · exact fun hp => by cases hp
  · trivial

/-- The thread that is inside has the mutex, and behind it the pointer is set. -/
theorem inv_unlock (h : Inv g s) {op : Operation F} (hpc : s.pc p = .unlock op) :
    Inv g { s.goto p (.ready op) with dlsym_mutex := none } := by
  have hheld : s.dlsym_mutex = some p := (h.exclusive p).mp (by rw [hpc]; rfl)
  apply h.handOver
  · exact iff_of_false (by simp [Pc.inside]) (by simp)
  · intro q hq
    rw [hheld]
    exact iff_of_false (by simpa using Ne.symm hq) (by simp)
  · rw [hpc]
    rfl
  · rfl
  · exact fun _ => h.relies p (by rw [hpc]; rfl)
  · trivial

/-- The swap succeeds: nobody else can set a pointer that is null. -/
theorem inv_compareAndSwap (h : Inv g s) {op : Operation F} {ptr_local : Option F}
    (hpc : s.pc p = .compareAndSwap op ptr_local) :
    s.ptr = none ∧ ptr_local = some g ∧
      Inv g { s.goto p (.unlock op) with ptr := some g, events := s.events } := by
  have hinside : (s.pc p).inside = true := by rw [hpc]; rfl
  have hlocal : ptr_local = some g := by
    have hp := h.knows p
    rw [hpc] at hp
    exact hp
  refine ⟨h.setting p (by rw [hpc]; rfl), hlocal, ?_⟩
  apply h.set
  · rw [hpc]
    rfl
  · intro q hq
    by_contra hset
    exact hq (h.unique hinside (Pc.inside_of_setting (Bool.eq_true_of_not_eq_false hset)))
  · rfl
  · trivial

theorem inv_store (h : Inv g s) {f : F} {r : Option F} (hpc : s.pc p = .store f r)
    (events : List (Event ι F)) :
    Inv g { s.goto p .idle with ptr := some f, events := events } := by
  apply h.set
  · rw [hpc]
    rfl
  · exact fun q _ => h.not_setting (p := p) (by rw [hpc]; rfl) q
  · rfl
  · trivial

/-- The use of the pointer. -/
theorem go_ready (h : Inv g s) {op : Operation F} (hpc : s.pc p = .ready op)
    (hstep : stepGo (some g) s p = some s') :
    Inv g s' ∧ eagerStep (s.eager g) (.go p) = some (s'.eager g) := by
  have hsome := h.relies p (by rw [hpc]; rfl)
  obtain ⟨f, hf⟩ := Option.isSome_iff_exists.mp hsome
  have heager : (s.eager g).pc p = .ready op := by
    change (s.pc p).eager g = .ready op
    rw [hpc]
    rfl
  have hptr : (s.eager g).ptr = f := by
    change s.ptr.getD g = f
    rw [hf]
    rfl
  cases op with
  | call =>
    simp only [stepGo, hpc] at hstep
    cases hstep
    have hidle : Inv g (s.goto p .idle) := by
      apply h.goto
      · rw [hpc]
        rfl
      · rw [hpc]
        rfl
      · exact fun hp => by cases hp
      · exact fun hp => by cases hp
      · trivial
    refine ⟨⟨hidle.exclusive, hidle.setting, hidle.relies, hidle.knows, hidle.lookups_le,
      hidle.lookups_zero, by rw [hf]; rfl⟩, ?_⟩
    have hsame := eager_goto (g := g) s p .idle
    simp only [eagerStep, heager, hptr, hf]
    rw [Option.some.injEq]
    change ({ (s.eager g).goto p (Pc.eager g .idle) with events := s.events
      ++ [.called p (some f)] } :
      Eager ι F) = { (s.goto p .idle).eager g with events := s.events ++ [.called p (some f)] }
    rw [hsame]
  | register f' =>
    simp only [stepGo, hpc] at hstep
    cases hstep
    refine ⟨?_, ?_⟩
    · apply h.goto
      · rw [hpc]
        rfl
      · rw [hpc]
        rfl
      · exact fun hp => by cases hp
      · exact fun _ => hsome
      · exact hsome
    · simp only [eagerStep, heager, hptr]
      rw [eager_goto, hf]
      rfl

theorem go_store (h : Inv g s) {f : F} {r : Option F} (hpc : s.pc p = .store f r)
    (hstep : stepGo (some g) s p = some s') :
    Inv g s' ∧ eagerStep (s.eager g) (.go p) = some (s'.eager g) := by
  obtain ⟨r', rfl⟩ : ∃ r', r = some r' := by
    have hp := h.knows p
    rw [hpc] at hp
    exact Option.isSome_iff_exists.mp hp
  simp only [stepGo, hpc] at hstep
  cases hstep
  refine ⟨inv_store h hpc _, ?_⟩
  have heager : (s.eager g).pc p = .store f r' := by
    change (s.pc p).eager g = .store f r'
    rw [hpc]
    rfl
  have hsame := eager_goto (g := g) s p .idle
  simp only [eagerStep, heager]
  rw [Option.some.injEq]
  change ({ (s.eager g).goto p (Pc.eager g .idle) with
      ptr := f, events := s.events ++ [.registered p f (some r')] } : Eager ι F) =
    { (s.goto p .idle).eager g with ptr := f, events := s.events ++ [.registered p f (some r')] }
  rw [hsame]

/-- Every access keeps the invariant, and is nothing for the eager pointer or a step of it. -/
theorem step_refines (h : Inv g s) {a : Action ι F} (hstep : step (some g) s a = some s') :
    Inv g s' ∧ (s'.eager g = s.eager g ∨ ∃ b, eagerStep (s.eager g) b = some (s'.eager g)) := by
  cases a with
  | begin p op =>
    simp only [step] at hstep
    split at hstep
    · rename_i hpc _
      cases hstep
      have heager : (s.eager g).pc p = .idle := by
        change (s.pc p).eager g = .idle
        rw [hpc]
        rfl
      refine ⟨inv_begin h op hpc, Or.inr ⟨.begin p op, ?_⟩⟩
      simp only [eagerStep, heager]
      rw [eager_goto]
      rfl
    · cases hstep
  | go p =>
    simp only [step, h.fault, Bool.false_eq_true, if_false] at hstep
    cases hpc : s.pc p with
    | idle =>
      simp only [stepGo, hpc] at hstep
      cases hstep
    | check op =>
      simp only [stepGo, hpc] at hstep
      cases hstep
      refine ⟨inv_check h hpc, Or.inl (eager_goto_same _ ?_)⟩
      rw [hpc]
      split <;> rfl
    | lock op =>
      simp only [stepGo, hpc] at hstep
      split at hstep
      · rename_i hfree
        cases hstep
        exact ⟨inv_lock h hpc hfree, Or.inl (eager_goto_same (.checkAgain op) (by rw [hpc]; rfl))⟩
      · cases hstep
    | checkAgain op =>
      simp only [stepGo, hpc] at hstep
      cases hstep
      refine ⟨inv_checkAgain h hpc, Or.inl (eager_goto_same _ ?_)⟩
      rw [hpc]
      split <;> rfl
    | lookup op =>
      simp only [stepGo, hpc] at hstep
      cases hstep
      exact ⟨h.lookup hpc,
        Or.inl (eager_goto_same (.compareAndSwap op (some g)) (by rw [hpc]; rfl))⟩
    | compareAndSwap op ptr_local =>
      obtain ⟨hnone, rfl, hinv⟩ := inv_compareAndSwap h hpc
      simp only [stepGo, hpc, hnone, Option.isNone_none, if_true] at hstep
      cases hstep
      refine ⟨hinv, Or.inl ?_⟩
      have hsame := eager_goto_same (g := g) (s := s) (p := p) (.unlock op) (by rw [hpc]; rfl)
      have hptr : (s.eager g).ptr = g := by
        change s.ptr.getD g = g
        rw [hnone]
        rfl
      change ({ (s.goto p (.unlock op)).eager g with ptr := g } : Eager ι F) = s.eager g
      rw [hsame]
      exact congrArg (fun ptr => ({ s.eager g with ptr := ptr } : Eager ι F)) hptr.symm
    | unlock op =>
      simp only [stepGo, hpc] at hstep
      cases hstep
      exact ⟨inv_unlock h hpc, Or.inl (eager_goto_same (.ready op) (by rw [hpc]; rfl))⟩
    | ready op =>
      obtain ⟨hinv, heager⟩ := go_ready h hpc hstep
      exact ⟨hinv, Or.inr ⟨_, heager⟩⟩
    | store f r =>
      obtain ⟨hinv, heager⟩ := go_store h hpc hstep
      exact ⟨hinv, Or.inr ⟨_, heager⟩⟩

/-- A thread that is not idle can go on, unless it waits for the mutex and another has it. -/
theorem go_isSome (hpc : s.pc p ≠ .idle) (hfree : ∀ op, s.pc p = .lock op → s.dlsym_mutex = none) :
    (stepGo (some g) s p).isSome = true := by
  cases hp : s.pc p with
  | idle => exact absurd hp hpc
  | lock op =>
    simp only [stepGo, hp, hfree op hp]
    rfl
  | ready op => cases op <;> simp [stepGo, hp]
  | _ => simp [stepGo, hp]

theorem Inv.goes_on (h : Inv g s) (hpc : s.pc p ≠ .idle) :
    ∃ q, (step (some g) s (.go q)).isSome = true := by
  have hgo : ∀ q, (stepGo (some g) s q).isSome = true →
    (step (some g) s (.go q)).isSome = true := by
    intro q hq
    simp only [step, h.fault, Bool.false_eq_true, if_false]
    exact hq
  cases hmutex : s.dlsym_mutex with
  | none => exact ⟨p, hgo p (go_isSome hpc fun _ _ => hmutex)⟩
  | some q =>
    -- The thread that has the mutex never waits.
    have hinside := (h.exclusive q).mpr hmutex
    refine ⟨q, hgo q (go_isSome ?_ ?_)⟩
    · intro hq
      rw [hq] at hinside
      cases hinside
    · intro op hq
      rw [hq] at hinside
      cases hinside

/-- When the lookup finds a function, it is for any number of threads, in every order of their
accesses, as if the pointer had held this function from the start: what they call, what they
register and what they get back is what happens in a run with such a pointer. The function is
looked up once at the most, the swap of a lookup succeeds, no null pointer is called, and a
thread can go on until all are done. -/
theorem lazy_refines_eager (g : F) {t : State ι F} {as : List (Action ι F)}
    (hrun : run (step (some g)) start as = some t) :
    (∃ bs u, run eagerStep (eagerStart g) bs = some u ∧ u.events = t.events ∧
      ∀ f, t.ptr = some f → u.ptr = f) ∧
    t.lookups ≤ 1 ∧ t.fault = false ∧
    (∀ p op ptr_local, t.pc p = .compareAndSwap op ptr_local → t.ptr = none) ∧
    ∀ p, t.pc p ≠ .idle → ∃ q, (step (some g) t (.go q)).isSome = true := by
  have hok : RunOk (step (some g)) (fun _ _ => True) start as := runOk_of_mem fun _ _ _ => trivial
  have hproject := @run_project (State ι F) (Action ι F) (step (some g)) (Eager ι F) (Action ι F)
    eagerStep (fun _ _ => True) (fun _ _ => True) (Inv g) (State.eager g)
  obtain ⟨hinv, bs, -, hbs⟩ := hproject
    (fun s a s' h _ hstep => by
      obtain ⟨hinv, hsame | ⟨b, hb⟩⟩ := step_refines h hstep
      · exact ⟨hinv, Or.inl hsame⟩
      · exact ⟨hinv, Or.inr ⟨b, trivial, hb⟩⟩) (inv_start g) hok hrun
  refine ⟨⟨bs, t.eager g, hbs, rfl, fun f hf => ?_⟩, hinv.lookups_le, hinv.fault,
    fun p op ptr_local hpc => hinv.setting p (by rw [hpc]; rfl), fun p hpc => hinv.goes_on hpc⟩
  change t.ptr.getD g = f
  rw [hf]
  rfl

end

/-- Two threads find the pointer null: one looks the function up, the other registers another
function before the first one calls. -/
def race : List (Action Nat Nat) :=
  [.begin 0 .call, .begin 1 (.register 7), .go 0, .go 1, .go 0, .go 0, .go 0, .go 0, .go 0, .go 1,
    .go 1, .go 1, .go 1, .go 1, .go 0]

theorem lazy_refines_eager_race :
    ∃ t, run (step (some 5)) start race = some t ∧
      t.events = [.registered 1 7 (some 5), .called 0 (some 7)] ∧
      (∃ bs u, run eagerStep (eagerStart 5) bs = some u ∧ u.events = t.events) ∧
      t.lookups ≤ 1 := by
  have hend : (run (step (some 5)) start race).map State.events =
      some [.registered 1 7 (some 5), .called 0 (some 7)] := by decide
  obtain ⟨t, hrun, hevents⟩ := Option.map_eq_some_iff.mp hend
  obtain ⟨⟨bs, u, hu, hsame, -⟩, hlookups, -⟩ := lazy_refines_eager 5 hrun
  exact ⟨t, hrun, hevents, ⟨bs, u, hu, hsame⟩, hlookups⟩

end TokuBackup.RealSyscalls
