import TokuBackup.Interpose.Model
import TokuBackup.Kernel.Content

/-!
# Short writes to the backup

`destination_file::pwrite` calls the real `pwrite` until the whole buffer is written. After a
short write it advances the offset and what is left of the size, but not the buffer, so that
the next call writes the beginning of the buffer again. The results of the real calls are a
list here; `writesBuffer_iff` says for which of them the bytes of the buffer end up in their
places.
-/

namespace TokuBackup.Interpose

open Kernel Table Lib Prog
open DoBackup (Errno)

/-! ## The results of the calls -/

/-- The results that the calls for `nbyte` bytes at `offset` can have: each transfers no more
than it is asked to, a call at a negative offset fails, and a call that fails or transfers
nothing is the last one. -/
def Fits : Int → Nat → List (Except Errno Nat) → Prop
  | _, nbyte, [] => nbyte = 0
  | _, nbyte, .error _ :: rs => 0 < nbyte ∧ rs = []
  | offset, nbyte, .ok n :: rs =>
    0 < nbyte ∧ 0 ≤ offset ∧ n ≤ nbyte ∧
      if n = 0 then rs = [] else Fits (offset + n) (nbyte - n) rs

/-- Every call transfers something. -/
def Succeed (rs : List (Except Errno Nat)) : Prop := ∀ r ∈ rs, ∃ n, 0 < n ∧ r = .ok n

/-- How many bytes the calls transfer. -/
def transferred : List (Except Errno Nat) → Nat
  | [] => 0
  | .error _ :: rs => transferred rs
  | .ok n :: rs => n + transferred rs

/-- The bytes that the calls take from the buffer: each begins at its beginning. -/
def taken (buf : List UInt8) : List (Except Errno Nat) → List UInt8
  | [] => []
  | .error _ :: rs => taken buf rs
  | .ok n :: rs => buf.take n ++ taken buf rs

/-- Whatever a call transfers after `pos` bytes is what the buffer has there. -/
def InPlace (buf : List UInt8) : Nat → List (Except Errno Nat) → Prop
  | _, [] => True
  | pos, .error _ :: rs => InPlace buf pos rs
  | pos, .ok n :: rs => (buf.drop pos).take n = buf.take n ∧ InPlace buf (pos + n) rs

theorem Fits.transferred_le {offset : Int} {nbyte : Nat} {rs : List (Except Errno Nat)}
    (h : Fits offset nbyte rs) : transferred rs ≤ nbyte := by
  induction rs generalizing offset nbyte with
  | nil => exact Nat.zero_le _
  | cons r rs ih =>
    cases r with
    | error e =>
      obtain ⟨_, rfl⟩ := h
      exact Nat.zero_le _
    | ok n =>
      obtain ⟨_, _, hn, hrest⟩ := h
      simp only [transferred]
      by_cases hzero : n = 0
      · rw [if_pos hzero] at hrest
        subst hrest
        simp only [transferred]
        omega
      · rw [if_neg hzero] at hrest
        have := ih hrest
        omega

/-- Calls that all transfer something transfer everything. -/
theorem Fits.transferred_eq {offset : Int} {nbyte : Nat} {rs : List (Except Errno Nat)}
    (h : Fits offset nbyte rs) (hrs : Succeed rs) : transferred rs = nbyte := by
  induction rs generalizing offset nbyte with
  | nil => exact h.symm
  | cons r rs ih =>
    obtain ⟨n, hpos, rfl⟩ := hrs r List.mem_cons_self
    obtain ⟨_, _, hn, hrest⟩ := h
    rw [if_neg (by omega)] at hrest
    have hrec := ih hrest fun r hr => hrs r (List.mem_cons_of_mem _ hr)
    simp only [transferred]
    omega

theorem Fits.taken_length {offset : Int} {nbyte : Nat} {rs : List (Except Errno Nat)}
    {buf : List UInt8} (h : Fits offset nbyte rs) (hbuf : nbyte ≤ buf.length) :
    (taken buf rs).length = transferred rs := by
  induction rs generalizing offset nbyte with
  | nil => rfl
  | cons r rs ih =>
    cases r with
    | error e =>
      obtain ⟨_, rfl⟩ := h
      rfl
    | ok n =>
      obtain ⟨_, _, hn, hrest⟩ := h
      simp only [taken, transferred, List.length_append, List.length_take]
      by_cases hzero : n = 0
      · rw [if_pos hzero] at hrest
        subst hrest
        simp only [taken, transferred, List.length_nil]
        omega
      · rw [if_neg hzero] at hrest
        have := ih hrest (by omega)
        omega

/-- The bytes taken are the bytes of the buffer exactly when they are in place. -/
theorem taken_eq_iff {offset : Int} {nbyte pos : Nat} {rs : List (Except Errno Nat)}
    {buf : List UInt8} (h : Fits offset nbyte rs) (hbuf : pos + nbyte = buf.length) :
    taken buf rs = (buf.drop pos).take (transferred rs) ↔ InPlace buf pos rs := by
  induction rs generalizing offset nbyte pos with
  | nil => simp [taken, transferred, InPlace]
  | cons r rs ih =>
    cases r with
    | error e =>
      obtain ⟨_, rfl⟩ := h
      simp [taken, transferred, InPlace]
    | ok n =>
      obtain ⟨_, _, hn, hrest⟩ := h
      have hlen : (buf.take n).length = ((buf.drop pos).take n).length := by
        simp only [List.length_take, List.length_drop]
        omega
      have hsplit : (buf.drop pos).take (n + transferred rs) =
          (buf.drop pos).take n ++ (buf.drop (pos + n)).take (transferred rs) := by
        rw [List.take_add, List.drop_drop]
      simp only [taken, transferred, InPlace]
      rw [hsplit]
      by_cases hzero : n = 0
      · rw [if_pos hzero] at hrest
        subst hrest
        subst hzero
        simp [taken, transferred, InPlace]
      · rw [if_neg hzero] at hrest
        have hrec := @ih _ _ (pos + n) hrest (by omega)
        constructor
        · intro heq
          obtain ⟨hfirst, hthen⟩ := List.append_inj heq hlen
          exact ⟨hfirst.symm, hrec.mp hthen⟩
        · intro hplace
          obtain ⟨hfirst, hthen⟩ := hplace
          rw [hfirst, hrec.mpr hthen]

/-! ## Executions -/

/-- The destination file, with what the next calls of `pwrite` return. -/
structure ScriptedFile where
  content : Content
  results : List (Except Errno Nat)

/-- The operations of `destination_file::pwrite` on the file with the fd. -/
def destinationHandler (fd : Nat) : Handler Op.Answer ScriptedFile where
  reply o f :=
    match o with
    | .backup (.pwrite id _ _) => if id = fd then f.results.head? else none
    | .backupError _ _ => some ()
    | _ => none
  allows _ _ _ := false
  next o f r :=
    match o, r with
    | .backup (.pwrite _ buf offset), (r : Except Errno Nat) =>
      match r with
      | .ok n => ⟨f.content.write offset.toNat (buf.take n), f.results.tail⟩
      | .error _ => ⟨f.content, f.results.tail⟩
    | _, _ => f

theorem reply_pwrite (fd : Nat) (buf : List UInt8) (offset : Int) (c : Content)
    (r : Except Errno Nat) (rs : List (Except Errno Nat)) :
    (destinationHandler fd).reply (.backup (.pwrite fd buf offset)) ⟨c, r :: rs⟩ = some r :=
  if_pos rfl

/-- The loop returns, and leaves the buffer's bytes as the calls have taken them. -/
theorem pwriteLoop_spec (d : DestinationFile) (buf : List UInt8) {fuel nbyte : Nat} {offset : Int}
    {rs : List (Except Errno Nat)} (hfuel : nbyte ≤ fuel) (hbuf : nbyte ≤ buf.length)
    (h : Fits offset nbyte rs) (c : Content) :
    ∃ r, exec (destinationHandler d.id) (pwriteLoop d buf fuel nbyte offset) ⟨c, rs⟩ [] =
        some (.ok r, ⟨c.write offset.toNat (taken buf rs), []⟩) ∧ (r = 0 ↔ Succeed rs) := by
  induction rs generalizing fuel nbyte offset c with
  | nil =>
    obtain rfl : nbyte = 0 := h
    refine ⟨0, ?_, by simp [Succeed]⟩
    cases fuel <;> simp [pwriteLoop, exec, taken]
  | cons r rs ih =>
    obtain ⟨f, rfl⟩ : ∃ f, fuel = f + 1 := by
      cases r with
      | error e => exact ⟨fuel - 1, by have := h.1; omega⟩
      | ok n => exact ⟨fuel - 1, by have := h.1; omega⟩
    cases r with
    | error e =>
      obtain ⟨hpos, rfl⟩ := h
      refine ⟨e.code, ?_, ?_⟩
      · rw [pwriteLoop, if_neg (by omega)]
        refine (exec_reply (reply_pwrite _ _ _ _ _ _)).trans ?_
        rw [taken, taken, Content.write_nil]
        rfl
      · refine iff_of_false e.code_ne fun hrs => ?_
        obtain ⟨n, _, hr⟩ := hrs (.error e) List.mem_cons_self
        cases hr
    | ok n =>
      obtain ⟨hpos, hoffset, hn, hrest⟩ := h
      by_cases hzero : n = 0
      · subst hzero
        rw [if_pos rfl] at hrest
        subst hrest
        refine ⟨-1, ?_, ?_⟩
        · rw [pwriteLoop, if_neg (by omega)]
          refine (exec_reply (reply_pwrite _ _ _ _ _ _)).trans ?_
          rw [taken, taken, List.take_zero, List.append_nil]
          rfl
        · refine iff_of_false (by decide) fun hrs => ?_
          obtain ⟨n, hn, hr⟩ := hrs (.ok 0) List.mem_cons_self
          cases hr
          omega
      · rw [if_neg hzero] at hrest
        obtain ⟨r, hrun, hr⟩ := @ih f _ _ (by omega) (by omega) hrest
          (c.write offset.toNat ((buf.take nbyte).take n))
        refine ⟨r, ?_, ?_⟩
        · rw [pwriteLoop, if_neg (by omega)]
          refine (exec_reply (reply_pwrite _ _ _ _ _ _)).trans ?_
          have hround : ∀ (p q : CallM Int), (if n = 0 then p else q) = q := fun _ _ => if_neg hzero
          have htake : (buf.take nbyte).take n = buf.take n := by
            rw [List.take_take, Nat.min_eq_left hn]
          have hnext : (offset + n).toNat = offset.toNat + (buf.take n).length := by
            rw [List.length_take]
            omega
          refine (congrArg (fun p => exec _ p _ _) (hround _ _)).trans (hrun.trans ?_)
          rw [htake, hnext, Content.write_append]
          rfl
        · rw [hr]
          unfold Succeed
          rw [List.forall_mem_cons]
          have hfirst : ∃ m, 0 < m ∧ (Except.ok n : Except Errno Nat) = .ok m :=
            ⟨n, by omega, rfl⟩
          exact (and_iff_right hfirst).symm

/-! ## The whole buffer -/

/-- When every call transfers something, the destination has the whole buffer in place of what
it had there, and the result is 0; otherwise the result is not 0, and the destination has what
the calls transferred of the buffer, in place. -/
def WritesBuffer (d : DestinationFile) (c : Content) (buf : List UInt8) (offset : Int)
    (rs : List (Except Errno Nat)) : Prop :=
  ∃ r c', exec (destinationHandler d.id) (destinationPwrite d buf offset) ⟨c, rs⟩ [] =
      some (.ok r, ⟨c', []⟩) ∧
    (Succeed rs → r = 0 ∧ c' = c.write offset.toNat buf) ∧
    (¬ Succeed rs → r ≠ 0 ∧ c' = c.write offset.toNat (buf.take (transferred rs)))

/-- `destination_file::pwrite` returns for all results of the calls, 0 exactly when they all
transfer something, and writes the buffer exactly when the calls happen to transfer bytes that
are the ones in their places: those after a short write repeat the beginning of the buffer. -/
theorem writesBuffer_iff (d : DestinationFile) (c : Content) (buf : List UInt8) (offset : Int)
    (rs : List (Except Errno Nat)) (h : Fits offset buf.length rs) :
    (∃ r c', exec (destinationHandler d.id) (destinationPwrite d buf offset) ⟨c, rs⟩ [] =
        some (.ok r, ⟨c', []⟩) ∧ (r = 0 ↔ Succeed rs)) ∧
      (WritesBuffer d c buf offset rs ↔ InPlace buf 0 rs) := by
  obtain ⟨r, hrun, hr⟩ := pwriteLoop_spec d buf (Nat.le_refl _) (Nat.le_refl _) h c
  refine ⟨⟨r, _, hrun, hr⟩, ?_⟩
  have hwhole : Succeed rs → buf.take (transferred rs) = buf := by
    intro hrs
    rw [h.transferred_eq hrs, List.take_length]
  have hplace : taken buf rs = buf.take (transferred rs) ↔ InPlace buf 0 rs := by
    have := @taken_eq_iff _ _ 0 _ _ h (Nat.zero_add _)
    rwa [List.drop_zero] at this
  rw [← hplace]
  constructor
  · intro hwrites
    obtain ⟨r', c', hrun', hall, hsome⟩ := hwrites
    have hc' : c.write offset.toNat (taken buf rs) = c' := by
      have hsame := hrun.symm.trans hrun'
      injection hsame with hsame
      injection hsame with _ hsame
      injection hsame
    have hlen : (taken buf rs).length = (buf.take (transferred rs)).length := by
      have hle := h.transferred_le
      rw [h.taken_length (Nat.le_refl _), List.length_take]
      omega
    apply Content.write_inj hlen
    rw [hc']
    by_cases hrs : Succeed rs
    · rw [hwhole hrs]
      exact (hall hrs).2
    · exact (hsome hrs).2
  · intro htaken
    refine ⟨r, _, hrun, ?_, ?_⟩
    · intro hrs
      rw [htaken, hwhole hrs]
      exact ⟨hr.mpr hrs, rfl⟩
    · intro hrs
      rw [htaken]
      exact ⟨fun hzero => hrs (hr.mp hzero), rfl⟩

/-- The same byte twice may be written one by one. -/
theorem writesBuffer_repeated :
    WritesBuffer ⟨0, []⟩ .empty [7, 7] 0 [.ok 1, .ok 1] :=
  (writesBuffer_iff ⟨0, []⟩ .empty [7, 7] 0 [.ok 1, .ok 1] (by simp [Fits])).2.mpr
    (by simp [InPlace])

/-- Two different bytes may not: the first one is written twice. -/
theorem not_writesBuffer_shortWrite :
    ¬ ∀ d c buf offset rs, Fits offset buf.length rs → WritesBuffer d c buf offset rs := by
  intro hall
  obtain ⟨r, c', hrun, hsucceed, _⟩ :=
    hall ⟨0, []⟩ .empty [1, 2] 0 [.ok 1, .ok 1] (by simp [Fits])
  obtain ⟨_, hc'⟩ := hsucceed (by simp [Succeed])
  have hsame : some (c'.byte 1) = some 1 := by
    have := congrArg (Option.map fun x => x.2.content.byte 1) hrun
    exact this.symm
  rw [hc'] at hsame
  exact absurd hsame (by decide)

end TokuBackup.Interpose
