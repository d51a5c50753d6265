import TokuBackup.Lib.Counted
import TokuBackup.Table.FileHashTable
import Mathlib.Data.List.Range

/-!
# What a sound table represents

`Rep` says that the table is a set of live files, each in the chain of the bucket of its
name, no two with one name, and `m_count` of them. In a sound table the operations on the
chains do what their names say: `get` finds the file with the name, `insert` adds one file
and `remove` takes one away, whatever the hash function, the order of the chains and the
resizes in between.

A rename onto the name of an open file leaves two files with one name. `Linked` says of a table
what is left then: `get` finds the first file with the name, and `remove` takes that one away.
-/

namespace TokuBackup.Table

open Kernel Lib

variable {hash : Path → Nat} {F : Files} {T T' : FileHashTable} {p q : Ptr} {n : Path}

/-- A chain of the table reaches the file. -/
def FileHashTable.Mem (T : FileHashTable) (p : Ptr) : Prop :=
  ∃ i < T.size, Reaches T.next (T.array i) p

/-- Every chain ends, and every file on it has a name and is in the bucket of its name. -/
structure Placed (hash : Path → Nat) (F : Files) (T : FileHashTable) : Prop where
  size_pos : 0 < T.size
  chain : ∀ i < T.size, ∃ l, IsChain T.next (T.array i) l
  place : ∀ i < T.size, ∀ p, Reaches T.next (T.array i) p →
    p < F.fresh ∧ ∃ n, F.name p = some n ∧ hash n % T.size = i

/-- A table of live files, which may have two of one name. -/
structure Linked (hash : Path → Nat) (F : Files) : Prop extends Placed hash F F.table where
  counted : Counted F.table.Mem F.table.count

/-- A sound table. -/
structure Rep (hash : Path → Nat) (F : Files) : Prop extends Linked hash F where
  inj : ∀ p q n, F.table.Mem p → F.table.Mem q → F.name p = some n → F.name q = some n → p = q

theorem not_mem_new (p : Ptr) : ¬ Files.new.table.Mem p := by
  rintro ⟨i, -, hp⟩
  cases hp

theorem rep_new : Rep hash Files.new := by
  refine ⟨⟨⟨Nat.one_pos, fun i _ => ⟨[], rfl⟩, ?_⟩, Counted.none not_mem_new⟩, ?_⟩
  · intro i hi p hp
    exact absurd ⟨i, hi, hp⟩ (not_mem_new p)
  · intro p q n hp
    exact absurd hp (not_mem_new p)

/-! ## Buckets -/

theorem Placed.hash_lt (h : Placed hash F T) (n : Path) : hash n % T.size < T.size :=
  Nat.mod_lt _ h.size_pos

theorem Placed.mem_iff (h : Placed hash F T) (hn : F.name p = some n) :
    T.Mem p ↔ Reaches T.next (T.array (hash n % T.size)) p := by
  constructor
  · rintro ⟨i, hi, hp⟩
    obtain ⟨-, m, hm, hplace⟩ := h.place i hi p hp
    rw [hn] at hm
    cases hm
    rw [hplace]
    exact hp
  · intro hp
    exact ⟨_, h.hash_lt n, hp⟩

theorem Placed.name_of_mem (h : Placed hash F T) (hp : T.Mem p) :
    p < F.fresh ∧ ∃ n, F.name p = some n := by
  obtain ⟨i, hi, hp⟩ := hp
  obtain ⟨hlt, n, hn, -⟩ := h.place i hi p hp
  exact ⟨hlt, n, hn⟩

/-- A file is in one bucket. -/
theorem Placed.bucket_unique (h : Placed hash F T) {i j : Nat} (hi : i < T.size) (hj : j < T.size)
    (hp : Reaches T.next (T.array i) p) (hp' : Reaches T.next (T.array j) p) : i = j := by
  obtain ⟨-, n, hn, rfl⟩ := h.place i hi p hp
  obtain ⟨-, m, hm, rfl⟩ := h.place j hj p hp'
  rw [hn] at hm
  cases hm
  rfl

theorem Placed.length_lt (h : Placed hash F T) {i : Nat} (hi : i < T.size) {l : List Ptr}
    (hl : IsChain T.next (T.array i) l) : l.length < F.fresh + 1 := by
  have hsub : l ⊆ List.range F.fresh := by
    intro p hp
    rw [List.mem_range]
    exact (h.place i hi p (hl.reaches_iff.mpr hp)).1
  have hle := (hl.nodup.subperm hsub).length_le
  rw [List.length_range] at hle
  omega

theorem live_of_name (hn : F.name p = some n) : ∃ f, F.heap p = some f ∧ f.fullPath = some n :=
  Option.bind_eq_some_iff.mp hn

/-! ## Searching -/

/-- A search that no node of the chain answers. -/
theorem Placed.scan_none (h : Placed hash F F.table) {i : Nat} (hi : i < F.table.size)
    {test : Ptr → Option Bool}
    (ht : ∀ p, Reaches F.table.next (F.table.array i) p → test p = some false) :
    F.scan test i = .ok none := by
  obtain ⟨l, hl⟩ := h.chain i hi
  rw [Files.scan, Lib.scan_none hl (fun p hp => ht p (hl.reaches_iff.mpr hp)) (h.length_lt hi hl)]
  rfl

/-- A search that exactly one node answers returns it, and its predecessor. -/
theorem Placed.scan_some (h : Placed hash F F.table) {i : Nat} (hi : i < F.table.size)
    (test : Ptr → Option Bool) (hp : Reaches F.table.next (F.table.array i) p)
    (ht : test p = some true)
    (hother : ∀ q, Reaches F.table.next (F.table.array i) q → q ≠ p → test q = some false) :
    ∃ l₁ l₂, IsChain F.table.next (F.table.array i) (l₁ ++ p :: l₂) ∧
      F.scan test i = .ok (some (l₁.getLast?, p)) := by
  obtain ⟨l, hl⟩ := h.chain i hi
  obtain ⟨l₁, l₂, rfl⟩ := List.append_of_mem (hl.reaches_iff.mp hp)
  refine ⟨l₁, l₂, hl, ?_⟩
  have hnot : p ∉ l₁ := by
    have hnodup := hl.nodup
    rw [List.nodup_middle, List.nodup_cons] at hnodup
    exact fun hp => hnodup.1 (List.mem_append_left l₂ hp)
  have hlen := h.length_lt hi hl
  rw [List.length_append] at hlen
  rw [Files.scan, Lib.scan_some hl ?_ ht (by omega)]
  · rw [Option.or_none]
    rfl
  · intro q hq
    refine hother q (hl.reaches_iff.mpr (List.mem_append_left _ hq)) ?_
    rintro rfl
    exact hnot hq

/-- A search by name: no file of the table has it, or the first one of its chain is found. -/
theorem Placed.scan_named (h : Placed hash F F.table) (n : Path) :
    ((∀ p, F.table.Mem p → F.name p ≠ some n) ∧
        F.scan (F.named n) (hash n % F.table.size) = .ok none) ∨
      ∃ l₁ p l₂, F.table.Mem p ∧ F.name p = some n ∧
        IsChain F.table.next (F.table.array (hash n % F.table.size)) (l₁ ++ p :: l₂) ∧
        F.scan (F.named n) (hash n % F.table.size) = .ok (some (l₁.getLast?, p)) := by
  obtain ⟨l, hl⟩ := h.chain _ (h.hash_lt n)
  have hlen := h.length_lt (h.hash_lt n) hl
  have htest : ∀ q ∈ l, ∃ b, F.named n q = some b := by
    intro q hq
    obtain ⟨-, m, hm, -⟩ := h.place _ (h.hash_lt n) q (hl.reaches_iff.mpr hq)
    exact ⟨decide (m = n), by rw [Files.named, hm, Option.map_some]⟩
  obtain hall | ⟨l₁, p, l₂, rfl, hbefore, hp⟩ := first_or_none htest
  · refine Or.inl ⟨fun p hp hn => ?_, ?_⟩
    · have hfalse := hall p (hl.reaches_iff.mp ((h.mem_iff hn).mp hp))
      rw [Files.named, hn, Option.map_some, decide_eq_true rfl] at hfalse
      cases hfalse
    · exact h.scan_none (h.hash_lt n) fun p hp => hall p (hl.reaches_iff.mp hp)
  · obtain ⟨m, hm, hmn⟩ := Option.map_eq_some_iff.mp hp
    have hn : F.name p = some n := by rw [hm, of_decide_eq_true hmn]
    have hreach : Reaches F.table.next (F.table.array (hash n % F.table.size)) p :=
      hl.reaches_iff.mpr (List.mem_append_right l₁ List.mem_cons_self)
    rw [List.length_append] at hlen
    refine Or.inr ⟨l₁, p, l₂, ⟨_, h.hash_lt n, hreach⟩, hn, hl, ?_⟩
    rw [Files.scan, Lib.scan_some hl hbefore hp (by omega), Option.or_none]
    rfl

/-- `get` of a name that no file of the table has. -/
theorem Placed.get_none (h : Placed hash F F.table)
    (hno : ∀ p, F.table.Mem p → F.name p ≠ some n) : F.get hash n = .ok none := by
  obtain ⟨-, hscan⟩ | ⟨_, p, _, hp, hn, -⟩ := h.scan_named n
  · rw [Files.get, hscan]
    rfl
  · exact absurd hn (hno p hp)

/-- What `get` can return. -/
theorem Placed.get_cases (h : Placed hash F F.table) (n : Path) :
    (∃ p, F.table.Mem p ∧ F.name p = some n ∧ F.get hash n = .ok (some p)) ∨
      ((∀ p, F.table.Mem p → F.name p ≠ some n) ∧ F.get hash n = .ok none) := by
  obtain ⟨hno, -⟩ | ⟨_, p, _, hp, hn, -, hscan⟩ := h.scan_named n
  · exact Or.inr ⟨hno, h.get_none hno⟩
  · refine Or.inl ⟨p, hp, hn, ?_⟩
    rw [Files.get, hscan]
    rfl

/-- `get` of the name of a file of the table. -/
theorem Rep.get_some (h : Rep hash F) (hp : F.table.Mem p) (hn : F.name p = some n) :
    F.get hash n = .ok (some p) := by
  obtain ⟨q, hq, hqn, hget⟩ | ⟨hno, -⟩ := h.get_cases n
  · rw [hget, h.inj q p n hq hp hqn hn]
  · exact absurd hn (hno p hp)

/-! ## Linking a file in -/

/-- A file that is in no chain becomes the head of the chain of its bucket. -/
theorem Placed.link (h : Placed hash F T) (hn : F.name p = some n) (hlt : p < F.fresh)
    (hp : ¬ T.Mem p) :
    Placed hash F (T.link p (hash n % T.size)) ∧
      ∀ q, (T.link p (hash n % T.size)).Mem q ↔ T.Mem q ∨ q = p := by
  have hchain : ∀ i < T.size, ∃ l, IsChain T.next (T.array i) l ∧
      IsChain (T.link p (hash n % T.size)).next ((T.link p (hash n % T.size)).array i)
        (if i = hash n % T.size then p :: l else l) := by
    intro i hi
    obtain ⟨l, hl⟩ := h.chain i hi
    have hpl : p ∉ l := fun hmem => hp ⟨i, hi, hl.reaches_iff.mpr hmem⟩
    refine ⟨l, hl, ?_⟩
    by_cases hi' : i = hash n % T.size
    · subst hi'
      simp only [FileHashTable.link, Function.update_self, if_true]
      exact hl.push hpl
    · simp only [FileHashTable.link, Function.update_of_ne hi', if_neg hi']
      exact hl.update hpl _
  have hreach : ∀ i < T.size, ∀ q,
      Reaches (T.link p (hash n % T.size)).next ((T.link p (hash n % T.size)).array i) q ↔
        Reaches T.next (T.array i) q ∨ (q = p ∧ i = hash n % T.size) := by
    intro i hi q
    obtain ⟨l, hl, hl'⟩ := hchain i hi
    rw [hl'.reaches_iff, hl.reaches_iff]
    split
    · rename_i hi'
      rw [List.mem_cons]
      tauto
    · rename_i hi'
      tauto
  refine ⟨⟨h.size_pos, fun i hi => ?_, fun i hi q hq => ?_⟩, fun q => ?_⟩
  · obtain ⟨l, -, hl'⟩ := hchain i hi
    exact ⟨_, hl'⟩
  · rcases (hreach i hi q).mp hq with hq | ⟨rfl, rfl⟩
    · exact h.place i hi q hq
    · exact ⟨hlt, n, hn, rfl⟩
  · constructor
    · rintro ⟨i, hi, hq⟩
      rcases (hreach i hi q).mp hq with hq | ⟨rfl, -⟩
      · exact Or.inl ⟨i, hi, hq⟩
      · exact Or.inr rfl
    · rintro (⟨i, hi, hq⟩ | rfl)
      · exact ⟨i, hi, (hreach i hi q).mpr (Or.inl hq)⟩
      · exact ⟨_, h.hash_lt n, (hreach _ (h.hash_lt n) q).mpr (Or.inr ⟨rfl, rfl⟩)⟩

/-! ## Resizing -/

/-- Moving a chain of files that are in no chain of the new table. -/
theorem Placed.moveChain {l : List Ptr} {head : Option Ptr} {fuel : Nat} (h : Placed hash F T)
    (hl : IsChain T.next head l) (hname : ∀ p ∈ l, p < F.fresh ∧ ∃ n, F.name p = some n)
    (hnew : ∀ p ∈ l, ¬ T.Mem p) (hf : l.length < fuel) :
    ∃ T', F.moveChain hash fuel head T = .ok T' ∧ Placed hash F T' ∧ T'.size = T.size ∧
      T'.count = T.count ∧ (∀ q, T'.Mem q ↔ T.Mem q ∨ q ∈ l) ∧
      ∀ q, q ∉ l → T'.next q = T.next q := by
  induction l generalizing head fuel T with
  | nil =>
    cases hl
    cases fuel with
    | zero => cases hf
    | succ fuel =>
      exact ⟨T, rfl, h, rfl, rfl, fun q => by simp, fun _ _ => rfl⟩
  | cons p l ih =>
    cases fuel with
    | zero => cases hf
    | succ fuel =>
      have hnodup := hl.nodup
      rw [List.nodup_cons] at hnodup
      obtain ⟨rfl, hl⟩ := hl
      obtain ⟨hlt, n, hn⟩ := hname p List.mem_cons_self
      obtain ⟨hplaced, hmem⟩ := h.link hn hlt (hnew p List.mem_cons_self)
      have hrest : IsChain (T.link p (hash n % T.size)).next (T.next p) l := hl.update hnodup.1 _
      have hname' : ∀ q ∈ l, q < F.fresh ∧ ∃ n, F.name q = some n :=
        fun q hq => hname q (List.mem_cons_of_mem p hq)
      have hnew' : ∀ q ∈ l, ¬ (T.link p (hash n % T.size)).Mem q := by
        intro q hq hq'
        rcases (hmem q).mp hq' with hq' | rfl
        · exact hnew q (List.mem_cons_of_mem p hq) hq'
        · exact hnodup.1 hq
      obtain ⟨T', hrun, hT', hsize, hcount, hmem', hnext⟩ :=
        ih hplaced hrest hname' hnew' (Nat.lt_of_succ_lt_succ hf)
      refine ⟨T', ?_, hT', hsize, hcount, fun q => ?_, fun q hq => ?_⟩
      · rw [Files.moveChain, hn, demand_some, ok_bind]
        exact hrun
      · rw [hmem' q, hmem q, List.mem_cons, or_assoc]
      · rw [List.mem_cons, not_or] at hq
        rw [hnext q hq.2]
        exact Function.update_of_ne hq.1 _ _

/-- Moving the chains of the old array, bucket by bucket. -/
theorem Placed.moveChains {T₀ : FileHashTable} {is : List Nat} (h₀ : Placed hash F T₀)
    (his : ∀ i ∈ is, i < T₀.size) (hnodup : is.Nodup) (h : Placed hash F T)
    (hnext : ∀ i ∈ is, ∀ p, Reaches T₀.next (T₀.array i) p → T.next p = T₀.next p ∧ ¬ T.Mem p) :
    ∃ T', F.moveChains hash T₀.array is T = .ok T' ∧ Placed hash F T' ∧ T'.size = T.size ∧
      T'.count = T.count ∧
      ∀ q, T'.Mem q ↔ T.Mem q ∨ ∃ i ∈ is, Reaches T₀.next (T₀.array i) q := by
  induction is generalizing T with
  | nil => exact ⟨T, rfl, h, rfl, rfl, fun q => by simp⟩
  | cons i is ih =>
    rw [List.nodup_cons] at hnodup
    have hi := his i List.mem_cons_self
    obtain ⟨l, hl⟩ := h₀.chain i hi
    have hmeml : ∀ p, p ∈ l ↔ Reaches T₀.next (T₀.array i) p := fun p => hl.reaches_iff.symm
    have hlT : IsChain T.next (T₀.array i) l :=
      hl.congr fun p hp => (hnext i List.mem_cons_self p ((hmeml p).mp hp)).1
    have hname : ∀ p ∈ l, p < F.fresh ∧ ∃ n, F.name p = some n := fun p hp =>
      h₀.name_of_mem ⟨i, hi, (hmeml p).mp hp⟩
    have hnew : ∀ p ∈ l, ¬ T.Mem p := fun p hp =>
      (hnext i List.mem_cons_self p ((hmeml p).mp hp)).2
    obtain ⟨T₁, hrun, hT₁, hsize, hcount, hmem, hframe⟩ :=
      h.moveChain hlT hname hnew (h₀.length_lt hi hl)
    -- a file is in one bucket of the old array, so the later buckets are untouched
    have hother : ∀ j ∈ is, ∀ p, Reaches T₀.next (T₀.array j) p → p ∉ l := by
      intro j hj p hp hpl
      obtain ⟨-, n, hn, hplace⟩ := h₀.place j (his j (List.mem_cons_of_mem i hj)) p hp
      obtain ⟨-, m, hm, hplace'⟩ := h₀.place i hi p ((hmeml p).mp hpl)
      rw [hn] at hm
      cases hm
      rw [hplace] at hplace'
      exact hnodup.1 (hplace' ▸ hj)
    have hnext' : ∀ j ∈ is, ∀ p, Reaches T₀.next (T₀.array j) p →
        T₁.next p = T₀.next p ∧ ¬ T₁.Mem p := by
      intro j hj p hp
      obtain ⟨heq, hno⟩ := hnext j (List.mem_cons_of_mem i hj) p hp
      have hpl := hother j hj p hp
      rw [hframe p hpl, hmem p]
      exact ⟨heq, fun hp' => hp'.elim hno hpl⟩
    obtain ⟨T', hrun', hT', hsize', hcount', hmem'⟩ :=
      ih (fun j hj => his j (List.mem_cons_of_mem i hj)) hnodup.2 hT₁ hnext'
    refine ⟨T', ?_, hT', hsize'.trans hsize, hcount'.trans hcount, fun q => ?_⟩
    · rw [Files.moveChains, hrun, ok_bind]
      exact hrun'
    · rw [hmem' q, hmem q, hmeml q]
      simp only [List.mem_cons, exists_eq_or_imp, or_assoc]

/-! ## The operations -/

/-- A change of the heap that keeps the names of the files in the table. -/
theorem Linked.congr {F' : Files} (h : Linked hash F) (ht : F'.table = F.table)
    (hfresh : F.fresh ≤ F'.fresh) (hname : ∀ p, F.table.Mem p → F'.name p = F.name p) :
    Linked hash F' where
  size_pos := by
    rw [ht]
    exact h.size_pos
  chain := by
    rw [ht]
    exact h.chain
  place i hi p hp := by
    rw [ht] at hi hp ⊢
    obtain ⟨hlt, n, hn, hplace⟩ := h.place i hi p hp
    refine ⟨lt_of_lt_of_le hlt hfresh, n, ?_, hplace⟩
    rw [hname p ⟨i, hi, hp⟩]
    exact hn
  counted := by
    rw [ht]
    exact h.counted

theorem Rep.congr {F' : Files} (h : Rep hash F) (ht : F'.table = F.table)
    (hfresh : F.fresh ≤ F'.fresh) (hname : ∀ p, F.table.Mem p → F'.name p = F.name p) :
    Rep hash F' where
  toLinked := h.toLinked.congr ht hfresh hname
  inj p q n hp hq hpn hqn := by
    rw [ht] at hp hq
    rw [hname p hp] at hpn
    rw [hname q hq] at hqn
    exact h.inj p q n hp hq hpn hqn

/-- A resize keeps the files of the table, and leaves room. -/
theorem Linked.maybeResize (h : Linked hash F) :
    ∃ T', F.maybeResize hash = .ok { F with table := T' } ∧ Linked hash { F with table := T' } ∧
      (∀ q, T'.Mem q ↔ F.table.Mem q) ∧ T'.count ≤ T'.size := by
  by_cases hsize : F.table.size < F.table.count
  · have hempty : ∀ p, ¬ FileHashTable.Mem
        { F.table with array := fun _ => none, size := F.table.size + F.table.count } p := by
      rintro p ⟨i, -, hp⟩
      cases hp
    have hnew : Placed hash F
        { F.table with array := fun _ => none, size := F.table.size + F.table.count } :=
      ⟨Nat.add_pos_left h.size_pos _, fun i _ => ⟨[], rfl⟩, fun i _ p hp => by cases hp⟩
    obtain ⟨T', hrun, hplaced, hsize', hcount, hmem⟩ :=
      Placed.moveChains h.toPlaced
        (fun i (hi : i ∈ List.range F.table.size) => List.mem_range.mp hi)
        List.nodup_range hnew
        fun i hi p hp => ⟨rfl, hempty p⟩
    have hmem' : ∀ q, T'.Mem q ↔ F.table.Mem q := by
      intro q
      rw [hmem q]
      constructor
      · rintro (hq | ⟨i, hi, hq⟩)
        · exact absurd hq (hempty q)
        · exact ⟨i, List.mem_range.mp hi, hq⟩
      · rintro ⟨i, hi, hq⟩
        exact Or.inr ⟨i, List.mem_range.mpr hi, hq⟩
    refine ⟨T', ?_, ⟨⟨hplaced.size_pos, hplaced.chain, hplaced.place⟩, ?_⟩, hmem', ?_⟩
    · rw [Files.maybeResize, if_pos hsize, hrun]
      rfl
    · rw [show ({ F with table := T' } : Files).table.count = F.table.count from hcount]
      exact h.counted.congr hmem'
    · rw [hcount, hsize']
      exact Nat.le_add_left _ _
  · refine ⟨F.table, ?_, h, fun q => Iff.rfl, Nat.not_lt.mp hsize⟩
    rw [Files.maybeResize, if_neg hsize]
    rfl

/-- `put` of a file of the table changes nothing. -/
theorem Rep.put_mem (h : Rep hash F) (hp : F.table.Mem p) : F.put hash p = .ok F := by
  obtain ⟨-, n, hn⟩ := h.name_of_mem hp
  obtain ⟨l₁, l₂, -, hscan⟩ := h.toPlaced.scan_some (h.hash_lt n)
    (fun current => (F.heap current).map fun _ => decide (current = p))
    ((h.mem_iff hn).mp hp) (by
      obtain ⟨f, hf, -⟩ := live_of_name hn
      rw [hf, Option.map_some, decide_eq_true rfl]) (by
      intro q hq hqp
      obtain ⟨-, m, hm, -⟩ := h.place _ (h.hash_lt n) q hq
      obtain ⟨f, hf, -⟩ := live_of_name hm
      rw [hf, Option.map_some, decide_eq_false hqp])
  rw [Files.put, hn, demand_some, ok_bind, Files.insert, hscan]
  rfl

/-- `put` of a file that is not in the table. -/
theorem Linked.put_new (h : Linked hash F) (hn : F.name p = some n) (hlt : p < F.fresh)
    (hp : ¬ F.table.Mem p) :
    ∃ T', F.put hash p = .ok { F with table := T' } ∧ Linked hash { F with table := T' } ∧
      (∀ q, T'.Mem q ↔ F.table.Mem q ∨ q = p) ∧ T'.count ≤ T'.size := by
  have hscan : F.scan (fun current => (F.heap current).map fun _ => decide (current = p))
      (hash n % F.table.size) = .ok none := by
    refine h.toPlaced.scan_none (h.hash_lt n) fun q hq => ?_
    obtain ⟨-, m, hm, -⟩ := h.place _ (h.hash_lt n) q hq
    obtain ⟨f, hf, -⟩ := live_of_name hm
    have hqp : q ≠ p := by
      rintro rfl
      exact hp ⟨_, h.hash_lt n, hq⟩
    rw [hf, Option.map_some, decide_eq_false hqp]
  obtain ⟨hplaced, hmem⟩ := h.toPlaced.link hn hlt hp
  let T₁ := F.table.link p (hash n % F.table.size)
  have hlinked : Linked hash { F with table := { T₁ with count := T₁.count + 1 } } :=
    ⟨⟨hplaced.size_pos, hplaced.chain, hplaced.place⟩, h.counted.add hp hmem⟩
  obtain ⟨T', hrun, hrep, hmem', hroom⟩ := hlinked.maybeResize
  refine ⟨T', ?_, hrep, fun q => ?_, hroom⟩
  · rw [Files.put, hn, demand_some, ok_bind, Files.insert, hscan]
    exact hrun
  · rw [hmem' q]
    exact hmem q

/-- `put` of a new file whose name no file of the table has. -/
theorem Rep.put_new (h : Rep hash F) (hn : F.name p = some n) (hlt : p < F.fresh)
    (hp : ¬ F.table.Mem p) (hno : ∀ q, F.table.Mem q → F.name q ≠ some n) :
    ∃ T', F.put hash p = .ok { F with table := T' } ∧ Rep hash { F with table := T' } ∧
      (∀ q, T'.Mem q ↔ F.table.Mem q ∨ q = p) ∧ T'.count ≤ T'.size := by
  obtain ⟨T', hrun, hlinked, hmem, hroom⟩ := h.toLinked.put_new hn hlt hp
  refine ⟨T', hrun, ⟨hlinked, ?_⟩, hmem, hroom⟩
  intro q r m hq hr hqm hrm
  change F.name q = some m at hqm
  change F.name r = some m at hrm
  rcases (hmem q).mp hq with hq' | rfl
  · rcases (hmem r).mp hr with hr' | rfl
    · exact h.inj q r m hq' hr' hqm hrm
    · rw [hn] at hrm
      cases hrm
      exact absurd hqm (hno q hq')
  · rcases (hmem r).mp hr with hr' | rfl
    · rw [hn] at hqm
      cases hqm
      exact absurd hrm (hno r hr')
    · rfl

/-- `remove` of a file whose name no file of the table has. -/
theorem Placed.remove_none (h : Placed hash F F.table) (hn : F.name p = some n)
    (hno : ∀ q, F.table.Mem q → F.name q ≠ some n) : F.remove hash p = .ok F := by
  obtain ⟨-, hscan⟩ | ⟨_, q, _, hq, hqn, -⟩ := h.scan_named n
  · rw [Files.remove, hn, demand_some, ok_bind]
    simp only [hscan, ok_bind]
    rfl
  · exact absurd hqn (hno q hq)

/-- `remove` takes out the file that `get` finds under the name, and no other. -/
theorem Linked.remove_found (h : Linked hash F) (hpn : F.name p = some n)
    (hget : F.get hash n = .ok (some q)) :
    ∃ T', F.remove hash p = .ok { F with table := T' } ∧ Linked hash { F with table := T' } ∧
      (∀ r, T'.Mem r ↔ F.table.Mem r ∧ r ≠ q) := by
  obtain ⟨l₁, l₂, hq, hn, hl, hscan⟩ : ∃ l₁ l₂, F.table.Mem q ∧ F.name q = some n ∧
      IsChain F.table.next (F.table.array (hash n % F.table.size)) (l₁ ++ q :: l₂) ∧
      F.scan (F.named n) (hash n % F.table.size) = .ok (some (l₁.getLast?, q)) := by
    obtain ⟨-, hscan⟩ | ⟨l₁, q', l₂, hq, hn, hl, hscan⟩ := h.scan_named n
    · rw [Files.get, hscan] at hget
      cases hget
    · rw [Files.get, hscan] at hget
      cases hget
      exact ⟨l₁, l₂, hq, hn, hl, hscan⟩
  have hcount : F.table.count ≠ 0 := Nat.pos_iff_ne_zero.mp (h.counted.pos hq)
  have hnodup := hl.nodup
  -- in each case the bucket of the name loses `q` and the other buckets keep their chains
  have key : ∀ T' : FileHashTable, T'.size = F.table.size → T'.count = F.table.count - 1 →
      IsChain T'.next (T'.array (hash n % F.table.size)) (l₁ ++ l₂) →
      (∀ i < F.table.size, i ≠ hash n % F.table.size →
        ∀ l, IsChain F.table.next (F.table.array i) l →
        IsChain T'.next (T'.array i) l) →
      Linked hash { F with table := T' } ∧ ∀ r, T'.Mem r ↔ F.table.Mem r ∧ r ≠ q := by
    intro T' hsize hcount' hchain hother
    have hreach : ∀ i < F.table.size, ∀ r, Reaches T'.next (T'.array i) r ↔
        Reaches F.table.next (F.table.array i) r ∧ r ≠ q := by
      intro i hi r
      by_cases hi' : i = hash n % F.table.size
      · subst hi'
        rw [hchain.reaches_iff, hl.reaches_iff, List.mem_append, List.mem_append, List.mem_cons]
        rw [List.nodup_middle, List.nodup_cons, List.mem_append] at hnodup
        constructor
        · intro hr
          refine ⟨hr.imp id Or.inr, ?_⟩
          rintro rfl
          exact hnodup.1 hr
        · rintro ⟨hr | rfl | hr, hrq⟩
          · exact Or.inl hr
          · exact absurd rfl hrq
          · exact Or.inr hr
      · obtain ⟨l, hli⟩ := h.chain i hi
        rw [(hother i hi hi' l hli).reaches_iff, hli.reaches_iff]
        refine ⟨fun hr => ⟨hr, ?_⟩, fun hr => hr.1⟩
        rintro rfl
        obtain ⟨-, m, hm, hplace⟩ := h.place i hi r (hli.reaches_iff.mpr hr)
        rw [hn] at hm
        cases hm
        exact hi' hplace.symm
    have hmem : ∀ r, T'.Mem r ↔ F.table.Mem r ∧ r ≠ q := by
      intro r
      constructor
      · rintro ⟨i, hi, hr⟩
        rw [hsize] at hi
        obtain ⟨hr, hrq⟩ := (hreach i hi r).mp hr
        exact ⟨⟨i, hi, hr⟩, hrq⟩
      · rintro ⟨⟨i, hi, hr⟩, hrq⟩
        exact ⟨i, hsize ▸ hi, (hreach i hi r).mpr ⟨hr, hrq⟩⟩
    refine ⟨⟨⟨hsize ▸ h.size_pos, ?_, ?_⟩, ?_⟩, hmem⟩
    · intro i hi
      rw [hsize] at hi
      by_cases hi' : i = hash n % F.table.size
      · subst hi'
        exact ⟨_, hchain⟩
      · obtain ⟨l, hli⟩ := h.chain i hi
        exact ⟨l, hother i hi hi' l hli⟩
    · intro i hi r hr
      rw [hsize] at hi ⊢
      exact h.place i hi r ((hreach i hi r).mp hr).1
    · rw [show ({ F with table := T' } : Files).table.count = F.table.count - 1 from hcount']
      exact h.counted.remove hq hmem
  cases l₁ using List.reverseRecOn with
  | nil =>
    obtain ⟨hhead, hl₂⟩ := hl
    have hrep := key
      { F.table with
        count := F.table.count - 1
        array := Function.update F.table.array (hash n % F.table.size) (F.table.next q) } rfl rfl
      (by simp only [Function.update_self]; exact hl₂)
      (fun i _ hi l hli => by simp only [Function.update_of_ne hi]; exact hli)
    refine ⟨_, ?_, hrep⟩
    rw [Files.remove, hpn, demand_some, ok_bind]
    simp only [hscan, ok_bind, if_neg hcount]
    rfl
  | append_singleton l₁ previous =>
    rw [List.append_assoc, List.singleton_append] at hl
    have hprevious : Reaches F.table.next (F.table.array (hash n % F.table.size)) previous :=
      hl.reaches_iff.mpr (List.mem_append_right l₁ List.mem_cons_self)
    have hrep := key
      { F.table with
        count := F.table.count - 1
        next := Function.update F.table.next previous (F.table.next q) } rfl rfl
      (by rw [List.append_assoc, List.singleton_append]; exact hl.unlink)
      (fun i hi hi' l hli => by
        refine hli.update (fun hmem => ?_) _
        obtain ⟨-, m, hm, hplace⟩ := h.place i hi previous (hli.reaches_iff.mpr hmem)
        obtain ⟨-, m', hm', hplace'⟩ := h.place _ (h.hash_lt n) previous hprevious
        rw [hm] at hm'
        cases hm'
        exact hi' (hplace.symm.trans hplace'))
    refine ⟨_, ?_, hrep⟩
    rw [Files.remove, hpn, demand_some, ok_bind]
    rw [List.getLast?_append, List.getLast?_singleton] at hscan
    simp only [hscan, ok_bind, if_neg hcount]
    rfl

/-- `remove` of a file of a sound table takes out that file and no other. -/
theorem Rep.remove_mem (h : Rep hash F) (hp : F.table.Mem p) :
    ∃ T', F.remove hash p = .ok { F with table := T' } ∧ Rep hash { F with table := T' } ∧
      (∀ q, T'.Mem q ↔ F.table.Mem q ∧ q ≠ p) := by
  obtain ⟨-, n, hn⟩ := h.name_of_mem hp
  obtain ⟨T', hrun, hlinked, hmem⟩ := h.toLinked.remove_found hn (h.get_some hp hn)
  refine ⟨T', hrun, ⟨hlinked, fun q r m hq hr => ?_⟩, hmem⟩
  exact h.inj q r m ((hmem q).mp hq).1 ((hmem r).mp hr).1

end TokuBackup.Table
