import TokuBackup.Lib.Simulation
import TokuBackup.Table.Operations
import Mathlib.Data.Finmap

/-!
# The file table is a finite map

What the table is for: a finite map from names to files. Clients make files, give files that
are not stored another name or delete them, and `put`, `get`, `get_or_create` and `remove`
in any order. As long as no two files of one name would be stored, the table answers like
the map, whatever the hash function and whenever it is resized.
-/

namespace TokuBackup.Table

open Kernel Lib

/-! ## The map -/

inductive Operation where
  /-- `new source_file(path)` -/
  | allocate (path : Path)
  /-- The file gets another name. -/
  | setName (file : Ptr) (path : Path)
  | delete (file : Ptr)
  | get (full_file_path : Path)
  | put (file : Ptr)
  /-- `insert` of a stored file, with the index of its bucket. -/
  | insert (file : Ptr)
  | getOrCreate (file_name : Path)
  | remove (file : Ptr)

/-- The files that exist, by their names, and those that are stored. -/
structure Store where
  names : Ptr → Option Path
  fresh : Ptr
  stored : Finmap fun _ : Path => Ptr

def Store.new : Store := ⟨fun _ => none, 0, ∅⟩

def Store.allocate (s : Store) (path : Path) : Store :=
  { s with names := Function.update s.names s.fresh (some path), fresh := s.fresh + 1 }

def Store.put (s : Store) (file : Ptr) (n : Path) : Store :=
  { s with stored := s.stored.insert n file }

/-- What an operation returns, and what it does to the map. -/
def Store.apply (s : Store) : Operation → Option Ptr × Store
  | .allocate path => (some s.fresh, s.allocate path)
  | .setName file path => (none, { s with names := Function.update s.names file (some path) })
  | .delete file => (none, { s with names := Function.update s.names file none })
  | .get n => (s.stored.lookup n, s)
  | .put file => (none, ((s.names file).map (s.put file)).getD s)
  | .insert _ => (none, s)
  | .getOrCreate n =>
    match s.stored.lookup n with
    | some file => (some file, s)
    | none => (some s.fresh, (s.allocate n).put s.fresh n)
  | .remove file =>
    (none, ((s.names file).map fun n => { s with stored := s.stored.erase n }).getD s)

/-- The file exists, and no other file of its name is stored. -/
def Store.Unrivalled (s : Store) (file : Ptr) : Prop :=
  ∃ n, s.names file = some n ∧ ∀ q, s.stored.lookup n = some q → q = file

def Store.Has (s : Store) (file : Ptr) : Prop :=
  ∃ n, s.names file = some n ∧ s.stored.lookup n = some file

/-- The file exists and is not stored. -/
def Store.Loose (s : Store) (file : Ptr) : Prop :=
  ∃ n, s.names file = some n ∧ s.stored.lookup n ≠ some file

instance (s : Store) (file : Ptr) : Decidable (s.Unrivalled file) :=
  decidable_of_iff (∃ n ∈ s.names file, ∀ q ∈ s.stored.lookup n, q = file) Iff.rfl

instance (s : Store) (file : Ptr) : Decidable (s.Has file) :=
  decidable_of_iff (∃ n ∈ s.names file, s.stored.lookup n = some file) Iff.rfl

instance (s : Store) (file : Ptr) : Decidable (s.Loose file) :=
  decidable_of_iff (∃ n ∈ s.names file, s.stored.lookup n ≠ some file) Iff.rfl

/-- No two files of one name are stored, and the files that are stored keep their names. -/
def Store.Allows (s : Store) : Operation → Prop
  | .put file => s.Unrivalled file
  | .insert file => s.Has file
  | .remove file => s.Unrivalled file
  | .setName file _ => s.Loose file
  | .delete file => s.Loose file
  | _ => True

instance (s : Store) (o : Operation) : Decidable (s.Allows o) := by
  apply @Operation.casesOn (fun o => Decidable (s.Allows o)) o
  case put => exact fun file => inferInstanceAs (Decidable (s.Unrivalled file))
  case insert => exact fun file => inferInstanceAs (Decidable (s.Has file))
  case remove => exact fun file => inferInstanceAs (Decidable (s.Unrivalled file))
  case setName => exact fun file _ => inferInstanceAs (Decidable (s.Loose file))
  case delete => exact fun file => inferInstanceAs (Decidable (s.Loose file))
  all_goals exact fun _ => isTrue trivial

/-- The operations on the table and its files. -/
def Files.apply (hash : Path → Nat) (F : Files) : Operation → Except Fault (Option Ptr × Files)
  | .allocate path => .ok (some (F.allocate path).1, (F.allocate path).2)
  | .setName file path => .ok (none, F.modify file fun f => { f with fullPath := some path })
  | .delete file => .ok (none, F.delete file)
  | .get n => do
    let file ← F.get hash n
    return (file, F)
  | .put file => do
    let F ← F.put hash file
    return (none, F)
  | .insert file => do
    let name ← demand (F.name file) .pointer
    let F ← F.insert hash file (hash name % F.table.size)
    return (none, F)
  | .getOrCreate n => do
    let (file, F) ← F.getOrCreate hash n
    return (some file, F)
  | .remove file => do
    let F ← F.remove hash file
    return (none, F)

/-- `remove` keeps the array's size, and the count goes down or stays. -/
theorem Files.remove_table {hash : Path → Nat} {F F' : Files} {p : Ptr}
    (h : F.remove hash p = .ok F') :
    F'.table.size = F.table.size ∧ F'.table.count ≤ F.table.count := by
  obtain ⟨name, -, h⟩ := bind_eq_ok.mp h
  obtain ⟨found, -, h⟩ := bind_eq_ok.mp h
  cases found with
  | none =>
    cases h
    exact ⟨rfl, le_rfl⟩
  | some x =>
    obtain ⟨previous, current⟩ := x
    simp only at h
    split at h
    · cases h
    · cases previous with
      | none =>
        cases h
        exact ⟨rfl, Nat.sub_le _ _⟩
      | some previous =>
        cases h
        exact ⟨rfl, Nat.sub_le _ _⟩

theorem Files.moveChain_table {hash : Path → Nat} {F : Files} {fuel : Nat} {head : Option Ptr}
    {T T' : FileHashTable} (h : F.moveChain hash fuel head T = .ok T') :
    T'.size = T.size ∧ T'.count = T.count := by
  induction fuel generalizing head T with
  | zero => cases h
  | succ fuel ih =>
    cases head with
    | none =>
      cases h
      exact ⟨rfl, rfl⟩
    | some head =>
      rw [Files.moveChain] at h
      obtain ⟨name, -, h⟩ := bind_eq_ok.mp h
      exact ih (T := T.link head (hash name % T.size)) h

theorem Files.moveChains_table {hash : Path → Nat} {F : Files} {old_array : Nat → Option Ptr}
    {is : List Nat} {T T' : FileHashTable} (h : F.moveChains hash old_array is T = .ok T') :
    T'.size = T.size ∧ T'.count = T.count := by
  induction is generalizing T with
  | nil =>
    cases h
    exact ⟨rfl, rfl⟩
  | cons i is ih =>
    rw [Files.moveChains] at h
    obtain ⟨T₁, hone, h⟩ := bind_eq_ok.mp h
    obtain ⟨hsize, hcount⟩ := Files.moveChain_table hone
    obtain ⟨hsize', hcount'⟩ := ih h
    exact ⟨hsize'.trans hsize, hcount'.trans hcount⟩

/-- A resize makes the array less than twice as long as the count. -/
theorem Files.put_size {hash : Path → Nat} {F F' : Files} {p : Ptr}
    (h : F.put hash p = .ok F') :
    F'.table.size = F.table.size ∨ F'.table.size < 2 * F'.table.count := by
  obtain ⟨name, -, h⟩ := bind_eq_ok.mp h
  obtain ⟨found, -, h⟩ := bind_eq_ok.mp h
  cases found with
  | some x =>
    cases h
    exact Or.inl rfl
  | none =>
    simp only [Files.maybeResize] at h
    split at h
    · rename_i hless
      obtain ⟨T, hT, h⟩ := bind_eq_ok.mp h
      obtain ⟨hsize, hcount⟩ := Files.moveChains_table hT
      cases h
      refine Or.inr ?_
      simp only at hsize hcount ⊢
      omega
    · cases h
      exact Or.inl rfl

/-! ## Which map a table is -/

/-- The table stores what the map says, with the files that exist. -/
structure Represents (hash : Path → Nat) (F : Files) (s : Store) : Prop where
  rep : Rep hash F
  names : ∀ p, F.name p = s.names p
  fresh : F.fresh = s.fresh
  made : ∀ p n, F.name p = some n → p < F.fresh
  stored : ∀ n p, s.stored.lookup n = some p ↔ F.table.Mem p ∧ F.name p = some n
  room : F.table.count ≤ F.table.size
  size_le : F.table.size ≤ 2 * F.fresh + 1

variable {hash : Path → Nat} {F : Files} {s : Store} {p : Ptr} {n : Path}

theorem represents_new : Represents hash Files.new Store.new where
  rep := rep_new
  names _ := rfl
  fresh := rfl
  made p n hn := by cases hn
  stored n p := by
    rw [Store.new, Finmap.lookup_empty]
    constructor
    · intro h
      cases h
    · intro h
      exact absurd h.1 (not_mem_new p)
  room := Nat.zero_le _
  size_le := Nat.le_refl _

namespace Represents

theorem count_le_fresh (h : Rep hash F) : F.table.count ≤ F.fresh := by
  obtain ⟨H, hH, hcard⟩ := h.counted
  have hsub : H ⊆ Finset.range F.fresh := fun p hp =>
    Finset.mem_range.mpr (h.name_of_mem ((hH p).mp hp)).1
  rw [← hcard, ← Finset.card_range F.fresh]
  exact Finset.card_le_card hsub

theorem lookup_of_mem (h : Represents hash F s) (hp : F.table.Mem p) :
    ∃ n, F.name p = some n ∧ s.stored.lookup n = some p := by
  obtain ⟨-, n, hn⟩ := h.rep.name_of_mem hp
  exact ⟨n, hn, (h.stored n p).mpr ⟨hp, hn⟩⟩

/-- `get` answers like the map. -/
theorem get (h : Represents hash F s) (n : Path) : F.get hash n = .ok (s.stored.lookup n) := by
  rcases h.rep.get_cases n with ⟨p, hp, hn, hget⟩ | ⟨hno, hget⟩
  · rw [hget, (h.stored n p).mpr ⟨hp, hn⟩]
  · cases hl : s.stored.lookup n with
    | none => exact hget
    | some p =>
      obtain ⟨hp, hn⟩ := (h.stored n p).mp hl
      exact absurd hn (hno p hp)

theorem not_mem_of_loose (h : Represents hash F s) (hp : s.Loose p) : ¬ F.table.Mem p := by
  intro hmem
  obtain ⟨n, hn, hno⟩ := hp
  rw [← h.names] at hn
  exact hno ((h.stored n p).mpr ⟨hmem, hn⟩)

/-- What an unrivalled file has to do with the table. -/
theorem unrivalled (h : Represents hash F s) (hp : s.Unrivalled p) :
    ∃ n, F.name p = some n ∧ s.names p = some n ∧
      ((F.table.Mem p ∧ s.stored.lookup n = some p) ∨
        (¬ F.table.Mem p ∧ s.stored.lookup n = none ∧ ∀ q, F.table.Mem q → F.name q ≠ some n)) := by
  obtain ⟨n, hn, honly⟩ := hp
  refine ⟨n, by rw [h.names, hn], hn, ?_⟩
  rw [← h.names] at hn
  by_cases hmem : F.table.Mem p
  · exact Or.inl ⟨hmem, (h.stored n p).mpr ⟨hmem, hn⟩⟩
  · have hfree : ∀ q, F.table.Mem q → F.name q ≠ some n := by
      intro q hq hqn
      have hqp := honly q ((h.stored n q).mpr ⟨hq, hqn⟩)
      rw [hqp] at hq
      exact hmem hq
    refine Or.inr ⟨hmem, ?_, hfree⟩
    cases hl : s.stored.lookup n with
    | none => rfl
    | some q =>
      obtain ⟨hq, hqn⟩ := (h.stored n q).mp hl
      exact absurd hqn (hfree q hq)

/-- `put` and `insert` of a stored file change nothing. -/
theorem put_stored (h : Represents hash F s) (hl : s.stored.lookup n = some p) :
    F.put hash p = .ok F ∧ F.insert hash p (hash n % F.table.size) = .ok F := by
  obtain ⟨hp, hn⟩ := (h.stored n p).mp hl
  have hput := h.rep.put_mem hp
  refine ⟨hput, ?_⟩
  rw [Files.put, hn, demand_some, ok_bind] at hput
  exact hput

/-! ## The operations keep it -/

/-- A change of the objects that are not stored. -/
theorem congr (h : Represents hash F s) {F' : Files} {s' : Store} (ht : F'.table = F.table)
    (hs : s'.stored = s.stored) (hfresh : F'.fresh = s'.fresh) (hle : F.fresh ≤ F'.fresh)
    (hnames : ∀ p, F'.name p = s'.names p) (hmade : ∀ p n, F'.name p = some n → p < F'.fresh)
    (hkeep : ∀ p, F.table.Mem p → F'.name p = F.name p) : Represents hash F' s' where
  rep := h.rep.congr ht hle hkeep
  names := hnames
  fresh := hfresh
  made := hmade
  stored n p := by
    rw [hs, h.stored, ht]
    constructor
    · rintro ⟨hp, hn⟩
      exact ⟨hp, (hkeep p hp).trans hn⟩
    · rintro ⟨hp, hn⟩
      exact ⟨hp, (hkeep p hp).symm.trans hn⟩
  room := by
    rw [ht]
    exact h.room
  size_le := by
    rw [ht]
    exact h.size_le.trans (Nat.succ_le_succ (Nat.mul_le_mul_left 2 hle))

theorem allocate (h : Represents hash F s) (path : Path) :
    (F.allocate path).1 = s.fresh ∧ Represents hash (F.allocate path).2 (s.allocate path) := by
  have hname : ∀ q, (F.allocate path).2.name q = if q = F.fresh then some path else F.name q :=
    fun q => (Files.name_update (F := F) (p := F.fresh) rfl).trans rfl
  refine ⟨h.fresh, h.congr rfl rfl ?_ (Nat.le_succ _) ?_ ?_ ?_⟩
  · exact congrArg Nat.succ h.fresh
  · intro q
    rw [hname, Store.allocate, ← h.fresh, h.names]
    exact (Function.update_apply s.names F.fresh _ q).symm
  · intro q n hq
    rw [hname] at hq
    split at hq
    · rename_i heq
      rw [heq]
      exact Nat.lt_succ_self _
    · exact (h.made q n hq).trans (Nat.lt_succ_self _)
  · intro q hq
    rw [hname, if_neg]
    rintro rfl
    exact absurd (h.rep.name_of_mem hq).1 (lt_irrefl _)

/-- Another name, or none, for a file that is not stored. -/
theorem setFile (h : Represents hash F s) (hp : s.Loose p) (o : Option SourceFile) :
    Represents hash (F.set p o)
      { s with names := Function.update s.names p (o.bind SourceFile.fullPath) } := by
  have hnot := h.not_mem_of_loose hp
  obtain ⟨n, hn, -⟩ := hp
  rw [← h.names] at hn
  refine h.congr rfl rfl h.fresh le_rfl ?_ ?_ ?_
  · intro q
    rw [Files.name_set, h.names]
    exact (Function.update_apply s.names p _ q).symm
  · intro q m hq
    rw [Files.name_set] at hq
    split at hq
    · rename_i heq
      rw [heq]
      exact h.made p n hn
    · exact h.made q m hq
  · intro q hq
    rw [Files.name_set, if_neg]
    rintro rfl
    exact hnot hq

theorem setName (h : Represents hash F s) (hp : s.Loose p) (path : Path) :
    Represents hash (F.modify p fun f => { f with fullPath := some path })
      { s with names := Function.update s.names p (some path) } := by
  have hset := h.setFile hp
  obtain ⟨n, hn, -⟩ := hp
  rw [← h.names] at hn
  obtain ⟨f, hf, -⟩ := live_of_name hn
  rw [Files.modify_of_heap hf]
  exact hset _

/-- `put` stores a file that is not stored yet. -/
theorem put_absent (h : Represents hash F s) (hn : F.name p = some n) (hp : ¬ F.table.Mem p)
    (hfree : ∀ q, F.table.Mem q → F.name q ≠ some n) :
    ∃ F', F.put hash p = .ok F' ∧ Represents hash F' (s.put p n) := by
  obtain ⟨T', hput, hrep, hmem, hroom⟩ := h.rep.put_new hn (h.made p n hn) hp hfree
  refine ⟨{ F with table := T' }, hput, hrep, h.names, h.fresh, h.made, fun m q => ?_, hroom, ?_⟩
  case refine_2 =>
    have hold := h.size_le
    have hcount := count_le_fresh hrep
    rcases Files.put_size hput with hsize | hsize
    · exact hsize ▸ hold
    · exact (hsize.trans_le (Nat.mul_le_mul_left 2 hcount)).le.trans (Nat.le_succ _)
  change (s.stored.insert n p).lookup m = some q ↔ T'.Mem q ∧ F.name q = some m
  rw [hmem]
  by_cases hm : m = n
  · subst hm
    rw [Finmap.lookup_insert, Option.some.injEq]
    constructor
    · rintro rfl
      exact ⟨Or.inr rfl, hn⟩
    · rintro ⟨hq | rfl, hqm⟩
      · exact absurd hqm (hfree q hq)
      · rfl
  · rw [Finmap.lookup_insert_of_ne _ hm, h.stored]
    constructor
    · rintro ⟨hq, hqm⟩
      exact ⟨Or.inl hq, hqm⟩
    · rintro ⟨hq | rfl, hqm⟩
      · exact ⟨hq, hqm⟩
      · rw [hn] at hqm
        cases hqm
        exact absurd rfl hm

theorem put (h : Represents hash F s) (hp : s.Unrivalled p) :
    ∃ F', F.apply hash (.put p) = .ok ((s.apply (.put p)).1, F') ∧
      Represents hash F' (s.apply (.put p)).2 := by
  obtain ⟨n, hn, hn', ⟨hmem, hlookup⟩ | ⟨hmem, -, hfree⟩⟩ := h.unrivalled hp
  · refine ⟨F, ?_, ?_⟩
    · rw [Files.apply, h.rep.put_mem hmem]
      rfl
    · rw [Store.apply, hn']
      have hsame : s.stored.insert n p = s.stored := by
        refine Finmap.ext_lookup fun m => ?_
        by_cases hm : m = n
        · rw [hm, Finmap.lookup_insert, hlookup]
        · rw [Finmap.lookup_insert_of_ne _ hm]
      rw [Option.map_some, Option.getD_some, Store.put, hsame]
      exact h
  · obtain ⟨F', hput, hF'⟩ := h.put_absent hn hmem hfree
    refine ⟨F', ?_, ?_⟩
    · rw [Files.apply, hput]
      rfl
    · rw [Store.apply, hn']
      exact hF'

theorem remove (h : Represents hash F s) (hp : s.Unrivalled p) :
    ∃ F', F.apply hash (.remove p) = .ok ((s.apply (.remove p)).1, F') ∧
      Represents hash F' (s.apply (.remove p)).2 := by
  obtain ⟨n, hn, hn', ⟨hmem, -⟩ | ⟨-, hlookup, hfree⟩⟩ := h.unrivalled hp
  · obtain ⟨T', hrun, hrep, hmem'⟩ := h.rep.remove_mem hmem
    obtain ⟨hsize, hcount⟩ := Files.remove_table hrun
    refine ⟨{ F with table := T' }, ?_, ?_⟩
    · rw [Files.apply, hrun]
      rfl
    · rw [Store.apply, hn', Option.map_some, Option.getD_some]
      have hold := h.size_le
      refine ⟨hrep, h.names, h.fresh, h.made, fun m q => ?_, ?_, hsize ▸ hold⟩
      · change (s.stored.erase n).lookup m = some q ↔ T'.Mem q ∧ F.name q = some m
        rw [hmem']
        by_cases hm : m = n
        · subst hm
          rw [Finmap.lookup_erase]
          constructor
          · intro hq
            cases hq
          · rintro ⟨⟨hq, hqp⟩, hqm⟩
            exact absurd (h.rep.inj q p m hq hmem hqm hn) hqp
        · rw [Finmap.lookup_erase_ne hm, h.stored]
          constructor
          · rintro ⟨hq, hqm⟩
            refine ⟨⟨hq, ?_⟩, hqm⟩
            rintro rfl
            rw [hn] at hqm
            cases hqm
            exact hm rfl
          · rintro ⟨⟨hq, -⟩, hqm⟩
            exact ⟨hq, hqm⟩
      · have hroom := h.room
        omega
  · refine ⟨F, ?_, ?_⟩
    · rw [Files.apply, h.rep.remove_none hn hfree]
      rfl
    · rw [Store.apply, hn', Option.map_some, Option.getD_some]
      have hsame : s.stored.erase n = s.stored := by
        refine Finmap.ext_lookup fun m => ?_
        by_cases hm : m = n
        · rw [hm, Finmap.lookup_erase, hlookup]
        · rw [Finmap.lookup_erase_ne hm]
      rw [hsame]
      exact h

/-- `get_or_create` of a name that is stored only takes a reference. -/
theorem getOrCreate_stored (h : Represents hash F s) (hl : s.stored.lookup n = some p) :
    ∃ F', F.getOrCreate hash n = .ok (p, F') ∧ Represents hash F' s := by
  obtain ⟨hp, hn⟩ := (h.stored n p).mp hl
  obtain ⟨f, hf, -⟩ := live_of_name hn
  have hadd : F.addReference p = F.set p (some { f with referenceCount := f.referenceCount + 1 }) :=
    Files.modify_of_heap hf _
  have hname : ∀ q, (F.addReference p).name q = F.name q := fun q => by
    rw [hadd]
    exact Files.name_set_same hf rfl
  refine ⟨F.addReference p, ?_, ?_⟩
  · rw [Files.getOrCreate, h.get, hl]
    rfl
  · refine h.congr rfl rfl h.fresh le_rfl (fun q => (hname q).trans (h.names q)) ?_
      fun q _ => hname q
    intro q m hq
    rw [hname] at hq
    exact h.made q m hq

/-- `get_or_create` of a name that is not stored makes a file and stores it. -/
theorem getOrCreate_new (h : Represents hash F s) (hl : s.stored.lookup n = none) :
    ∃ F', F.getOrCreate hash n = .ok (s.fresh, F') ∧
      Represents hash F' ((s.allocate n).put s.fresh n) := by
  obtain ⟨hfresh, h₁⟩ := h.allocate n
  have hname : (F.allocate n).2.name s.fresh = some n := by
    rw [h₁.names]
    exact Function.update_self _ _ _
  have hnot : ¬ (F.allocate n).2.table.Mem s.fresh := by
    intro hp
    have hlt := (h.rep.name_of_mem hp).1
    rw [h.fresh] at hlt
    exact lt_irrefl _ hlt
  have hfree : ∀ q, (F.allocate n).2.table.Mem q → (F.allocate n).2.name q ≠ some n := by
    intro q hq hqn
    have hlookup := (h₁.stored n q).mpr ⟨hq, hqn⟩
    rw [Store.allocate, hl] at hlookup
    cases hlookup
  obtain ⟨F₂, hput, h₂⟩ := h₁.put_absent hname hnot hfree
  obtain ⟨F', hsame, h'⟩ := h₂.getOrCreate_stored (n := n) (p := s.fresh) (by
    rw [Store.put, Finmap.lookup_insert])
  obtain ⟨found, hget, hrest⟩ := bind_eq_ok.mp hsame
  rw [h₂.get, Store.put, Finmap.lookup_insert, Except.ok.injEq] at hget
  subst hget
  cases hrest
  refine ⟨F₂.addReference s.fresh, ?_, h'⟩
  rw [Files.getOrCreate, h.get, hl]
  simp only [ok_bind]
  rw [show F.allocate n = (s.fresh, (F.allocate n).2) from Prod.ext hfresh rfl]
  simp only [hput, ok_bind]
  rfl

/-- Every operation answers like the map, and the table stays the map. -/
theorem step (F : Files) (s : Store) (o : Operation) (h : Represents hash F s) (ho : s.Allows o) :
    ∃ F', F.apply hash o = .ok ((s.apply o).1, F') ∧ Represents hash F' (s.apply o).2 := by
  cases o with
  | allocate path =>
    obtain ⟨hp, h'⟩ := h.allocate path
    exact ⟨_, by rw [Files.apply, hp]; rfl, h'⟩
  | setName p path => exact ⟨_, rfl, h.setName ho path⟩
  | delete p => exact ⟨_, rfl, h.setFile ho none⟩
  | get n => exact ⟨F, by rw [Files.apply, h.get]; rfl, h⟩
  | put p => exact h.put ho
  | insert p =>
    obtain ⟨n, hn, hl⟩ := ho
    rw [← h.names] at hn
    refine ⟨F, ?_, h⟩
    rw [Files.apply, hn, demand_some, ok_bind, (h.put_stored hl).2]
    rfl
  | getOrCreate n =>
    cases hl : s.stored.lookup n with
    | some p =>
      obtain ⟨F', hrun, h'⟩ := h.getOrCreate_stored hl
      refine ⟨F', ?_, ?_⟩
      · rw [Files.apply, hrun, Store.apply, hl]
        rfl
      · rw [Store.apply, hl]
        exact h'
    | none =>
      obtain ⟨F', hrun, h'⟩ := h.getOrCreate_new hl
      refine ⟨F', ?_, ?_⟩
      · rw [Files.apply, hrun, Store.apply, hl]
        rfl
      · rw [Store.apply, hl]
        exact h'
  | remove p => exact h.remove ho

/-! ## What the table looks like -/

/-- The chain of a bucket has the stored files of the bucket, each of them once. -/
theorem bucket (h : Represents hash F s) {i : Nat} (hi : i < F.table.size) :
    ∃ l, IsChain F.table.next (F.table.array i) l ∧ l.Nodup ∧
      ∀ p, p ∈ l ↔ ∃ n, s.stored.lookup n = some p ∧ hash n % F.table.size = i := by
  obtain ⟨l, hl⟩ := h.rep.chain i hi
  refine ⟨l, hl, hl.nodup, fun p => ?_⟩
  rw [← hl.reaches_iff]
  constructor
  · intro hp
    obtain ⟨-, n, hn, hplace⟩ := h.rep.place i hi p hp
    exact ⟨n, (h.stored n p).mpr ⟨⟨i, hi, hp⟩, hn⟩, hplace⟩
  · rintro ⟨n, hn, rfl⟩
    obtain ⟨hmem, hname⟩ := (h.stored n p).mp hn
    exact (h.rep.mem_iff hname).mp hmem

/-- `m_count` is the number of stored files. -/
theorem count_eq (h : Represents hash F s) : F.table.count = s.stored.keys.card := by
  have hkeys : ∀ n, n ∈ s.stored.keys ↔ ∃ p, F.table.Mem p ∧ F.name p = some n := by
    intro n
    rw [Finmap.mem_keys, Finmap.mem_iff]
    exact exists_congr fun p => h.stored n p
  obtain ⟨H, hH, hcard⟩ := h.rep.counted
  rw [← hcard]
  refine Finset.card_bij (fun p _ => (F.name p).getD []) ?_ ?_ ?_
  · intro p hp
    obtain ⟨n, hn, -⟩ := h.lookup_of_mem ((hH p).mp hp)
    rw [hn, Option.getD_some, hkeys]
    exact ⟨p, (hH p).mp hp, hn⟩
  · intro p hp q hq hpq
    obtain ⟨n, hn, -⟩ := h.lookup_of_mem ((hH p).mp hp)
    obtain ⟨m, hm, -⟩ := h.lookup_of_mem ((hH q).mp hq)
    rw [hn, hm, Option.getD_some, Option.getD_some] at hpq
    subst hpq
    exact h.rep.inj p q n ((hH p).mp hp) ((hH q).mp hq) hn hm
  · intro n hn
    obtain ⟨p, hp, hpn⟩ := (hkeys n).mp hn
    exact ⟨p, (hH p).mpr hp, by rw [hpn, Option.getD_some]⟩

end Represents

/-- The table is the map `stored`. -/
structure Files.IsMap (F : Files) (hash : Path → Nat) (stored : Finmap fun _ : Path => Ptr) :
    Prop where
  get : ∀ n, F.get hash n = .ok (stored.lookup n)
  name : ∀ n p, stored.lookup n = some p → F.name p = some n
  put_stored : ∀ n p, stored.lookup n = some p →
    F.put hash p = .ok F ∧ F.insert hash p (hash n % F.table.size) = .ok F
  /-- Every stored file is in the chain of its bucket, once, and nothing else is. -/
  bucket : ∀ i < F.table.size, ∃ l, IsChain F.table.next (F.table.array i) l ∧ l.Nodup ∧
    ∀ p, p ∈ l ↔ ∃ n, stored.lookup n = some p ∧ hash n % F.table.size = i
  count : F.table.count = stored.keys.card
  size_pos : 0 < F.table.size
  room : F.table.count ≤ F.table.size
  /-- The index of a bucket fits an `int` until `2 ^ 30` files have been made. -/
  size_le : F.table.size ≤ 2 * F.fresh + 1

theorem Represents.isMap (h : Represents hash F s) : F.IsMap hash s.stored where
  get := h.get
  name _ _ hl := ((h.stored _ _).mp hl).2
  put_stored _ _ hl := h.put_stored hl
  bucket _ hi := h.bucket hi
  count := h.count_eq
  size_pos := h.rep.size_pos
  room := h.room
  size_le := h.size_le

/-- In every sequence of operations that stores no two files of one name, and that leaves the
names of stored files alone, the table answers like the map and is the map at the end. -/
theorem file_table_refines (hash : Path → Nat) {os : List Operation}
    (hok : Allowed Store.apply Store.Allows Store.new os) :
    ∃ F, perform (Files.apply hash) Files.new os = .ok ((answers Store.apply Store.new os).1, F) ∧
      F.IsMap hash (answers Store.apply Store.new os).2.stored := by
  have hnew : Represents hash Files.new Store.new := represents_new
  obtain ⟨F, hrun, hF⟩ := perform_of_simulation Represents.step hnew hok
  exact ⟨F, hrun, hF.isMap⟩

/-- Files that are stored twice, removed twice and found again, all in one bucket. -/
def collisions : List Operation :=
  [.allocate ['a'], .allocate ['b'], .put 0, .put 1, .put 0, .getOrCreate ['c'], .remove 0,
    .remove 0, .get ['a'], .getOrCreate ['a'], .get ['a'], .get ['b']]

theorem file_table_refines_collisions :
    ∃ F, perform (Files.apply fun _ => 5) Files.new collisions = .ok
        ([some 0, some 1, none, none, none, some 2, none, none, none, some 3, some 3, some 1], F) ∧
      F.IsMap (fun _ => 5) (answers Store.apply Store.new collisions).2.stored := by
  have hok : Allowed Store.apply Store.Allows Store.new collisions := by decide
  exact file_table_refines (fun _ => 5) hok

end TokuBackup.Table
