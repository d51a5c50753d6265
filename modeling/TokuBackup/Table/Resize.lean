import TokuBackup.Lib.Amortized
import TokuBackup.Table.Refinement

/-!
# What resizing costs

`maybe_resize` moves every file of the table to a new array, but the array is then about twice
as long as the files need. So the files that a sequence of operations moves are at most two
for every file that is put, also when files are removed in between.
-/

namespace TokuBackup.Table

open Kernel Lib

/-! ## The files that are moved -/

section

variable (hash : Path → Nat)

/-- How many files `moveChain` moves. -/
def Files.chainMoves (F : Files) : Nat → Option Ptr → FileHashTable → Nat
  | 0, _, _ => 0
  | _ + 1, none, _ => 0
  | fuel + 1, some head, T =>
    match F.name head with
    | none => 0
    | some name => 1 + F.chainMoves fuel (T.next head) (T.link head (hash name % T.size))

/-- How many files `moveChains` moves. -/
def Files.chainsMoves (F : Files) (old_array : Nat → Option Ptr) : List Nat → FileHashTable → Nat
  | [], _ => 0
  | i :: is, T =>
    F.chainMoves hash (F.fresh + 1) (old_array i) T +
      match F.moveChain hash (F.fresh + 1) (old_array i) T with
      | .ok T => F.chainsMoves old_array is T
      | .error _ => 0

/-- How many files `maybe_resize` moves. -/
def Files.resizeMoves (F : Files) : Nat :=
  let T := F.table
  if T.size < T.count then
    F.chainsMoves hash T.array (List.range T.size)
      { T with array := fun _ => none, size := T.size + T.count }
  else
    0

/-- How many files the `maybe_resize` of an `insert` moves. -/
def Files.insertMoves (F : Files) (file : Ptr) (hash_index : Nat) : Nat :=
  match F.scan (fun current => (F.heap current).map fun _ => decide (current = file))
    hash_index with
  | .ok none =>
    let T := F.table.link file hash_index
    { F with table := { T with count := T.count + 1 } }.resizeMoves hash
  | _ => 0

def Files.putMoves (F : Files) (file : Ptr) : Nat :=
  match F.name file with
  | none => 0
  | some name => F.insertMoves hash file (hash name % F.table.size)

/-- How many files an operation moves. -/
def Files.moves (F : Files) : Operation → Nat
  | .put file => F.putMoves hash file
  | .insert file => F.putMoves hash file
  | .getOrCreate n =>
    match F.get hash n with
    | .ok none => (F.allocate n).2.putMoves hash (F.allocate n).1
    | _ => 0
  | _ => 0

end

variable {hash : Path → Nat} {F F' : Files} {T : FileHashTable} {s : Store} {p : Ptr} {n : Path}

theorem chainMoves_eq {l : List Ptr} {head : Option Ptr} {fuel : Nat}
    (hl : IsChain T.next head l) (hname : ∀ p ∈ l, ∃ n, F.name p = some n)
    (hf : l.length < fuel) : F.chainMoves hash fuel head T = l.length := by
  induction l generalizing head fuel T with
  | nil =>
    cases hl
    cases fuel with
    | zero => cases hf
    | succ fuel => rfl
  | cons p l ih =>
    cases fuel with
    | zero => cases hf
    | succ fuel =>
      have hnodup := hl.nodup
      rw [List.nodup_cons] at hnodup
      obtain ⟨rfl, hl⟩ := hl
      obtain ⟨n, hn⟩ := hname p List.mem_cons_self
      have hrest : IsChain (T.link p (hash n % T.size)).next (T.next p) l := hl.update hnodup.1 _
      have hmoves := ih hrest (fun q hq => hname q (List.mem_cons_of_mem p hq))
        (Nat.lt_of_succ_lt_succ hf)
      simp only [Files.chainMoves, hn, hmoves, List.length_cons]
      exact Nat.add_comm _ _

/-- The files that are moved are the new files of the new array. -/
theorem Placed.chainsMoves {T₀ : FileHashTable} {is : List Nat} {k : Nat} (h₀ : Placed hash F T₀)
    (his : ∀ i ∈ is, i < T₀.size) (hnodup : is.Nodup) (h : Placed hash F T)
    (hnext : ∀ i ∈ is, ∀ p, Reaches T₀.next (T₀.array i) p → T.next p = T₀.next p ∧ ¬ T.Mem p)
    (hcounted : Counted T.Mem k) :
    Counted (fun q => T.Mem q ∨ ∃ i ∈ is, Reaches T₀.next (T₀.array i) q)
      (k + F.chainsMoves hash T₀.array is T) := by
  induction is generalizing T k with
  | nil => exact hcounted.congr fun q => by simp
  | cons i is ih =>
    rw [List.nodup_cons] at hnodup
    have hi := his i List.mem_cons_self
    obtain ⟨l, hl⟩ := h₀.chain i hi
    have hmeml : ∀ p, p ∈ l ↔ Reaches T₀.next (T₀.array i) p := fun p => hl.reaches_iff.symm
    have hlT : IsChain T.next (T₀.array i) l :=
      hl.congr fun p hp => (hnext i List.mem_cons_self p ((hmeml p).mp hp)).1
    have hname : ∀ p ∈ l, p < F.fresh ∧ ∃ n, F.name p = some n := fun p hp =>
      h₀.name_of_mem ⟨i, hi, (hmeml p).mp hp⟩
    have hnew : ∀ p ∈ l, ¬ T.Mem p := fun p hp =>
      (hnext i List.mem_cons_self p ((hmeml p).mp hp)).2
    have hlength := h₀.length_lt hi hl
    obtain ⟨T₁, hrun, hT₁, -, -, hmem, hframe⟩ := h.moveChain hlT hname hnew hlength
    have hnext' : ∀ j ∈ is, ∀ p, Reaches T₀.next (T₀.array j) p →
        T₁.next p = T₀.next p ∧ ¬ T₁.Mem p := by
      intro j hj p hp
      obtain ⟨heq, hno⟩ := hnext j (List.mem_cons_of_mem i hj) p hp
      have hpl : p ∉ l := by
        intro hpl
        have hij := h₀.bucket_unique hi (his j (List.mem_cons_of_mem i hj)) ((hmeml p).mp hpl) hp
        exact hnodup.1 (hij ▸ hj)
      rw [hframe p hpl, hmem p]
      exact ⟨heq, fun hp' => hp'.elim hno hpl⟩
    have hone := hcounted.addAll hlT.nodup hnew hmem
    have hall := ih (fun j hj => his j (List.mem_cons_of_mem i hj)) hnodup.2 hT₁ hnext' hone
    rw [Files.chainsMoves, chainMoves_eq hlT (fun p hp => (hname p hp).2) hlength, hrun,
      ← Nat.add_assoc]
    apply hall.congr
    intro q
    rw [hmem q, hmeml q]
    simp only [List.mem_cons, exists_eq_or_imp, or_assoc]

/-- A resize moves every file of the table once. -/
theorem Placed.resizeMoves (h : Placed hash F F.table)
    (hcounted : Counted F.table.Mem F.table.count)
    (hsize : F.table.size < F.table.count) : F.resizeMoves hash = F.table.count := by
  have hempty : ∀ p, ¬ FileHashTable.Mem
      { F.table with array := fun _ => none, size := F.table.size + F.table.count } p := by
    rintro p ⟨i, -, hp⟩
    cases hp
  have hnew : Placed hash F
      { F.table with array := fun _ => none, size := F.table.size + F.table.count } :=
    ⟨Nat.add_pos_left h.size_pos _, fun i _ => ⟨[], rfl⟩, fun i _ p hp => by cases hp⟩
  have hmoved := Placed.chainsMoves h
    (fun i (hi : i ∈ List.range F.table.size) => List.mem_range.mp hi) List.nodup_range hnew
    (fun i hi p hp => ⟨rfl, hempty p⟩) (Counted.none hempty)
  have hsame := hmoved.eq (hcounted.congr fun q => by
    constructor
    · rintro (hq | ⟨i, hi, hq⟩)
      · exact absurd hq (hempty q)
      · exact ⟨i, List.mem_range.mp hi, hq⟩
    · rintro ⟨i, hi, hq⟩
      exact Or.inr ⟨i, List.mem_range.mpr hi, hq⟩)
  rw [Nat.zero_add] at hsame
  rw [Files.resizeMoves]
  exact (if_pos hsize).trans hsame

/-! ## Who pays for them -/

/-- How many more files there are than fill half of the array. -/
def Files.saved (F : Files) : Nat := 2 * F.table.count - F.table.size

/-- What an operation pays: two moves for a file that it may put. -/
def Operation.credit : Operation → Nat
  | .put _ => 2
  | .insert _ => 2
  | .getOrCreate _ => 2
  | _ => 0

/-- The array has the size it had, or twice the size and one bucket more. -/
def Grows (T T' : FileHashTable) : Prop := T'.size = T.size ∨ T'.size + 1 = 2 * (T.size + 1)

/-- `put` is paid by two moves and what has been saved. -/
theorem Represents.put_paid (h : Represents hash F s) (hput : F.put hash p = .ok F') :
    F.putMoves hash p + F'.saved ≤ 2 + F.saved ∧ Grows F.table F'.table := by
  have hroom := h.room
  have hwhole := hput
  obtain ⟨name, hname, hput⟩ := bind_eq_ok.mp hput
  have hn : F.name p = some name := demand_eq_ok.mp hname
  obtain ⟨found, hscan, hput⟩ := bind_eq_ok.mp hput
  cases found with
  | some found =>
    cases hput
    simp only [Files.putMoves, hn, Files.insertMoves, hscan]
    exact ⟨by omega, Or.inl rfl⟩
  | none =>
    simp only [Files.putMoves, hn, Files.insertMoves, hscan]
    simp only [Files.maybeResize] at hput
    split at hput
    · rename_i hless
      obtain ⟨T', hmoved, hput⟩ := bind_eq_ok.mp hput
      have htable := Files.moveChains_table hmoved
      have hsize : T'.size = F.table.size + (F.table.count + 1) := htable.1
      have hcount : T'.count = F.table.count + 1 := htable.2
      cases hput
      have hnot : ¬ F.table.Mem p := by
        intro hp
        rw [h.rep.put_mem hp, Except.ok.injEq] at hwhole
        have hsame := congrArg (fun F : Files => F.table.count) hwhole
        rw [hcount] at hsame
        omega
      obtain ⟨hplaced, hmem⟩ := h.rep.toPlaced.link hn (h.made p name hn) hnot
      have hmoves := Placed.resizeMoves (F := { F with table :=
          { F.table.link p (hash name % F.table.size) with count := F.table.count + 1 } })
        ⟨hplaced.size_pos, hplaced.chain, hplaced.place⟩ (h.rep.counted.add hnot hmem) hless
      have hfull : F.table.size < F.table.count + 1 := hless
      refine ⟨(Nat.add_le_add_right (Nat.le_of_eq hmoves) _).trans ?_, Or.inr ?_⟩
      · rw [Files.saved, hsize, hcount, Files.saved]
        change F.table.count + 1 + _ ≤ _
        omega
      · rw [hsize]
        omega
    · rename_i hless
      cases hput
      have hmoves : Files.resizeMoves hash { F with table :=
          { F.table.link p (hash name % F.table.size) with count := F.table.count + 1 } } = 0 :=
        if_neg hless
      refine ⟨(Nat.add_le_add_right (Nat.le_of_eq hmoves) _).trans ?_, Or.inl rfl⟩
      rw [Files.saved, Files.saved]
      change 0 + (2 * (F.table.count + 1) - F.table.size) ≤ _
      omega

/-- Every operation is paid. -/
theorem Represents.paid (h : Represents hash F s) {o : Operation} (ho : s.Allows o) :
    ∃ F', F.apply hash o = .ok ((s.apply o).1, F') ∧ Represents hash F' (s.apply o).2 ∧
      F.moves hash o + F'.saved ≤ o.credit + F.saved ∧ Grows F.table F'.table := by
  obtain ⟨F', hrun, h'⟩ := Represents.step F s o h ho
  refine ⟨F', hrun, h', ?_⟩
  -- An operation that puts nothing moves nothing, and the count does not go up.
  have hidle : F.moves hash o = 0 → F'.table.size = F.table.size →
      F'.table.count ≤ F.table.count →
      F.moves hash o + F'.saved ≤ o.credit + F.saved ∧ Grows F.table F'.table := by
    intro hmoves hsize hcount
    refine ⟨?_, Or.inl hsize⟩
    rw [hmoves, Files.saved, Files.saved, hsize]
    omega
  cases o with
  | allocate path =>
    obtain rfl : (F.allocate path).2 = F' := congrArg Prod.snd (Except.ok.inj hrun)
    exact hidle rfl rfl (Nat.le_refl _)
  | setName file path =>
    obtain rfl : F.modify file _ = F' := congrArg Prod.snd (Except.ok.inj hrun)
    exact hidle rfl rfl (Nat.le_refl _)
  | delete file =>
    obtain rfl : F.delete file = F' := congrArg Prod.snd (Except.ok.inj hrun)
    exact hidle rfl rfl (Nat.le_refl _)
  | get n =>
    obtain ⟨found, -, hrun⟩ := bind_eq_ok.mp hrun
    obtain rfl : F = F' := congrArg Prod.snd (Except.ok.inj hrun)
    exact hidle rfl rfl (Nat.le_refl _)
  | put file =>
    obtain ⟨F₁, hput, hrun⟩ := bind_eq_ok.mp hrun
    cases hrun
    exact h.put_paid hput
  | insert file =>
    obtain ⟨name, hname, hrun⟩ := bind_eq_ok.mp hrun
    obtain ⟨F₁, hinsert, hrun⟩ := bind_eq_ok.mp hrun
    cases hrun
    exact h.put_paid (bind_eq_ok.mpr ⟨name, hname, hinsert⟩)
  | getOrCreate n =>
    obtain ⟨⟨source, F₁⟩, hget, hrun⟩ := bind_eq_ok.mp hrun
    obtain rfl : F₁ = F' := congrArg Prod.snd (Except.ok.inj hrun)
    obtain ⟨found, hfound, hget⟩ := bind_eq_ok.mp hget
    cases found with
    | some file =>
      cases hget
      refine hidle ?_ rfl (Nat.le_refl _)
      simp only [Files.moves, hfound]
    | none =>
      obtain ⟨F₂, hput, hget⟩ := bind_eq_ok.mp hget
      cases hget
      obtain ⟨-, hallocated⟩ := h.allocate n
      have hpaid := hallocated.put_paid (p := (F.allocate n).1) hput
      simp only [Files.moves, hfound]
      exact hpaid
  | remove file =>
    obtain ⟨F₁, hremove, hrun⟩ := bind_eq_ok.mp hrun
    cases hrun
    obtain ⟨hsize, hcount⟩ := Files.remove_table hremove
    exact hidle rfl hsize hcount

/-- In every sequence of operations that `file_table_refines` is about, the resizes move at
most two files for every `put` and `get_or_create`, and the size of the array stays one below
a power of two. -/
theorem resizes_amortised (hash : Path → Nat) {os : List Operation}
    (hok : Allowed Store.apply Store.Allows Store.new os) :
    totalCost (Files.apply hash) (Files.moves hash) Files.new os ≤ totalCredit Operation.credit os ∧
    ∃ bs F k, perform (Files.apply hash) Files.new os = .ok (bs, F) ∧
      F.table.size + 1 = 2 ^ k ∧ F.table.count ≤ F.table.size := by
  have hnew : Represents hash Files.new Store.new ∧ ∃ k, Files.new.table.size + 1 = 2 ^ k :=
    ⟨represents_new, 1, rfl⟩
  have hgrows : ∀ F F' : Files, Grows F.table F'.table → (∃ k, F.table.size + 1 = 2 ^ k) →
      ∃ k, F'.table.size + 1 = 2 ^ k := by
    rintro F F' (hsize | hsize) ⟨k, hk⟩
    · exact ⟨k, by rw [hsize, hk]⟩
    · exact ⟨k + 1, by rw [hsize, hk, pow_succ, Nat.mul_comm]⟩
  constructor
  · exact totalCost_le Files.saved
      (fun F s => Represents hash F s ∧ ∃ k, F.table.size + 1 = 2 ^ k)
      (fun F s o hR ho => by
        obtain ⟨F', hrun, h', hpaid, hgrow⟩ := hR.1.paid ho
        exact ⟨_, F', hrun, ⟨h', hgrows F F' hgrow hR.2⟩, hpaid⟩) hnew hok
  · obtain ⟨F, hrun, hF, k, hk⟩ := perform_of_simulation
      (R := fun F s => Represents hash F s ∧ ∃ k, F.table.size + 1 = 2 ^ k)
      (fun F s o hR ho => by
        obtain ⟨F', hrun, h', -, hgrow⟩ := hR.1.paid ho
        exact ⟨F', hrun, h', hgrows F F' hgrow hR.2⟩) hnew hok
    exact ⟨_, F, k, hrun, hk, hF.room⟩

theorem resizes_amortised_collisions :
    totalCost (Files.apply fun _ => 5) (Files.moves fun _ => 5) Files.new collisions = 2 ∧
      totalCost (Files.apply fun _ => 5) (Files.moves fun _ => 5) Files.new collisions ≤ 10 := by
  have hok : Allowed Store.apply Store.Allows Store.new collisions := by decide
  exact ⟨by decide, (resizes_amortised (fun _ => 5) hok).1⟩

end TokuBackup.Table
