import TokuBackup.Moves.Ahead

/-!
# Copies that are written

What is at a path of the backup is a beginning of the file's content while the copier writes it.
A file that the copier has open is written to whether it is renamed meanwhile or another takes
its place.
-/

namespace TokuBackup.Moves

open Kernel

/-- The file at a path of the backup. -/
def State.inodeAt (s : State) (k : List Path) : Option Nat :=
  match s.backup k with
  | some (.file inode) => some inode
  | _ => none

/-- The source file whose copy is being written. -/
def Pc.copies : Pc → Option Nat
  | .copying file _ _ => some file
  | _ => none

/-- The file at `k` has `len` bytes, or the copier is writing it. -/
def Written (len : Nat) (k : List Path) (s : State) : Prop :=
  ∃ inode ∈ s.inodeAt k, len ≤ (s.data inode).len ∨
    ∃ id ∈ s.pc.copies, ∃ dst ∈ s.destination id, dst.inode = inode

/-- What is at the paths `P` of the backup is a beginning of the content `c`, at least as long as
what the copier has written to it. -/
structure Stored (c : Content) (P : List Path → Prop) (s : State) : Prop where
  fresh : ∀ l i, s.backup l = some (.file i) → i < s.inodes
  single : ∀ l l' i, s.backup l = some (.file i) → s.backup l' = some (.file i) → l = l'
  bound : ∀ id n dst, Holds s id n dst → dst.inode < s.inodes
  writing : ∀ id content total, s.pc = .copying id content total → ∃ n dst, Holds s id n dst
  part : ∀ l i, P l → s.backup l = some (.file i) → ∃ t, t ≤ c.len ∧ s.data i = c.truncate t ∧
    ∀ id content total n dst, s.pc = .copying id content total → Holds s id n dst →
      dst.inode = i → content = c ∧ dst.offset = total ∧ total ≤ t

variable {D : DirectorySet} {old new : Path} {s s' s₁ : State} {a : Action} {c : Content}
  {P : List Path → Prop} {k l : List Path} {id : Nat} {file : SourceFile}

theorem mem_inodeAt {i : Nat} : i ∈ s.inodeAt k ↔ s.backup k = some (.file i) := by
  rw [State.inodeAt, Option.mem_def]
  split
  · rename_i inode hk
    rw [hk]
    simp
  · rename_i hk
    refine iff_of_false (by simp) fun h => hk i h

theorem mem_destination {dst : DestinationFile} :
    dst ∈ s.destination id ↔ ∃ n, Holds s id n dst := by
  rw [State.destination, Option.mem_def, Option.bind_eq_some_iff]
  constructor
  · rintro ⟨f, hf, hdst⟩
    exact ⟨f.name, f, hf, rfl, hdst⟩
  · rintro ⟨n, f, hf, -, hdst⟩
    exact ⟨f, hf, hdst⟩

theorem mem_copies : id ∈ s.pc.copies ↔ ∃ content total, s.pc = .copying id content total := by
  rw [Option.mem_def]
  constructor
  · intro h
    cases hpc : s.pc <;> rw [hpc] at h <;> cases h
    exact ⟨_, _, rfl⟩
  · rintro ⟨content, total, hpc⟩
    rw [hpc]
    rfl

/-! ## The copies of a step -/

/-- The backup is the same, and the copier goes on with what it has. -/
theorem Stored.carry (hS : Stored c P s) (hbackup : s'.backup = s.backup)
    (hdata : s'.data = s.data) (hinodes : s'.inodes = s.inodes) (hpc : s'.pc = s.pc)
    (hbound : ∀ id n dst, Holds s' id n dst → dst.inode < s.inodes)
    (hholds : ∀ id content total, s.pc = .copying id content total → ∀ n dst,
      Holds s' id n dst →
        ∃ m dst', Holds s id m dst' ∧ dst'.inode = dst.inode ∧ dst'.offset = dst.offset)
    (hwriting : ∀ id content total, s.pc = .copying id content total →
      ∃ n dst, Holds s' id n dst) : Stored c P s' where
  fresh := by
    rw [hbackup, hinodes]
    exact hS.fresh
  single := by
    rw [hbackup]
    exact hS.single
  bound := by
    rw [hinodes]
    exact hbound
  writing := by
    rw [hpc]
    exact hwriting
  part l i hl hi := by
    rw [hbackup] at hi
    obtain ⟨t, ht, hpart, hcopy⟩ := hS.part l i hl hi
    refine ⟨t, ht, by rw [hdata]; exact hpart, fun id content total n dst hcopying hheld heq => ?_⟩
    rw [hpc] at hcopying
    obtain ⟨m, dst', hheld', hinode, hoffset⟩ := hholds id content total hcopying n dst hheld
    rw [← hoffset]
    exact hcopy id content total m dst' hcopying hheld' (hinode.trans heq)

theorem Stored.aside (hS : Stored c P s) (hbackup : s'.backup = s.backup)
    (hdata : s'.data = s.data) (hinodes : s'.inodes = s.inodes) (hpc : s'.pc = s.pc)
    (hholds : ∀ id n dst, Holds s' id n dst ↔ Holds s id n dst) : Stored c P s' := by
  refine hS.carry hbackup hdata hinodes hpc
    (fun id n dst h => hS.bound id n dst ((hholds _ _ _).mp h))
    (fun id content total _ n dst h => ⟨n, dst, (hholds _ _ _).mp h, rfl, rfl⟩) ?_
  intro id content total hcopying
  obtain ⟨n, dst, h⟩ := hS.writing id content total hcopying
  exact ⟨n, dst, (hholds _ _ _).mpr h⟩

/-- The copier copies nothing. -/
theorem Stored.past (hS : Stored c P s) (hbackup : s'.backup = s.backup)
    (hdata : s'.data = s.data) (hinodes : s'.inodes = s.inodes)
    (hholds : ∀ id n dst, Holds s' id n dst → Holds s id n dst) (hpc : s'.pc.copies = none) :
    Stored c P s' where
  fresh := by
    rw [hbackup, hinodes]
    exact hS.fresh
  single := by
    rw [hbackup]
    exact hS.single
  bound id n dst hheld := by
    rw [hinodes]
    exact hS.bound id n dst (hholds id n dst hheld)
  writing id content total hcopying := by
    rw [hcopying] at hpc
    cases hpc
  part l i hl hi := by
    rw [hbackup] at hi
    obtain ⟨t, ht, hpart, -⟩ := hS.part l i hl hi
    refine ⟨t, ht, by rw [hdata]; exact hpart, fun id content total n dst hcopying => ?_⟩
    rw [hcopying] at hpc
    cases hpc

/-- A directory is made. -/
theorem Stored.made (hS : Stored c P s) :
    Stored c P { s with backup := Function.update s.backup l (some .directory) } := by
  have hfile : ∀ l' i, Function.update s.backup l (some Entry.directory) l' = some (.file i) →
      s.backup l' = some (.file i) := by
    intro l' i hi
    rw [Function.update_apply] at hi
    split at hi
    · cases hi
    · exact hi
  refine ⟨?_, ?_, hS.bound, hS.writing, ?_⟩
  · exact fun l' i hi => hS.fresh l' i (hfile l' i hi)
  · exact fun l' l'' i hi hi' => hS.single l' l'' i (hfile l' i hi) (hfile l'' i hi')
  · exact fun l' i hl hi => hS.part l' i hl (hfile l' i hi)

/-- A file is created in the backup. -/
theorem Stored.created (hS : Stored c P s) : Stored c P { s with
    backup := Function.update s.backup l (some (.file s.inodes))
    data := Function.update s.data s.inodes .empty
    inodes := s.inodes + 1 } := by
  have hcases : ∀ l' i, Function.update s.backup l (some (Entry.file s.inodes)) l' =
    some (.file i) →
      l' = l ∧ i = s.inodes ∨ s.backup l' = some (.file i) := by
    intro l' i hi
    rw [Function.update_apply] at hi
    split at hi
    · rename_i hl
      cases hi
      exact Or.inl ⟨hl, rfl⟩
    · exact Or.inr hi
  refine ⟨fun l' i hi => ?_, fun l' l'' i hi hi' => ?_, fun id n dst hheld => ?_, hS.writing,
    fun l' i hl hi => ?_⟩
  · change i < s.inodes + 1
    obtain ⟨-, rfl⟩ | hi := hcases l' i hi
    · exact Nat.lt_succ_self _
    · exact Nat.lt_succ_of_lt (hS.fresh l' i hi)
  · obtain ⟨hl, rfl⟩ | hi := hcases l' i hi
    · obtain ⟨hl', -⟩ | hi' := hcases l'' _ hi'
      · rw [hl, hl']
      · exact absurd (hS.fresh l'' _ hi') (lt_irrefl _)
    · obtain ⟨-, rfl⟩ | hi' := hcases l'' i hi'
      · exact absurd (hS.fresh l' _ hi) (lt_irrefl _)
      · exact hS.single l' l'' i hi hi'
  · exact Nat.lt_succ_of_lt (hS.bound id n dst hheld)
  · obtain ⟨-, rfl⟩ | hi := hcases l' i hi
    · refine ⟨0, Nat.zero_le _, ?_, fun id content total n dst _ hheld hinode => ?_⟩
      · rw [Content.truncate_zero]
        exact Function.update_self _ _ _
      · exact absurd (hS.bound id n dst hheld) (hinode ▸ lt_irrefl _)
    · obtain ⟨t, ht, hpart, hcopy⟩ := hS.part l' i hl hi
      refine ⟨t, ht, ?_, hcopy⟩
      exact (Function.update_of_ne (Nat.ne_of_lt (hS.fresh l' i hi)) _ _).trans hpart

/-- There is a destination for the source file. -/
theorem Stored.provides (hS : Stored c P s) {dest : DestinationFile} (hfile : ∀ dst,
    file.destination = some dst → dst.inode < s.inodes) (h : Provides s file l s₁ dest) :
    Stored c P s₁ ∧ dest.inode < s₁.inodes := by
  obtain ⟨hdest, rfl⟩ | ⟨-, inode, hopen, rfl⟩ := h
  · exact ⟨hS, hfile dest hdest⟩
  · obtain ⟨hfound, rfl⟩ | ⟨-, rfl, rfl⟩ := openCreate_cases hopen
    · exact ⟨hS, hS.fresh l inode hfound⟩
    · exact ⟨hS.created, Nat.lt_succ_self _⟩

/-- Whose destination the file at `k` is. -/
theorem Stored.provided_at (hS : Stored c P s) {dest : DestinationFile}
    (h : Provides s file l s₁ dest) (hi : s₁.backup k = some (.file dest.inode)) :
    l = k ∨ file.destination = some dest ∧ s.backup k = some (.file dest.inode) := by
  obtain ⟨hdest, rfl⟩ | ⟨-, inode, hopen, rfl⟩ := h
  · exact Or.inr ⟨hdest, hi⟩
  · refine Or.inl ?_
    obtain ⟨hfound, rfl⟩ | ⟨-, rfl, rfl⟩ := openCreate_cases hopen
    · exact hS.single _ _ inode hfound hi
    · by_contra hne
      change Function.update s.backup _ _ k = _ at hi
      rw [Function.update_of_ne (Ne.symm hne)] at hi
      exact absurd (hS.fresh k _ hi) (lt_irrefl _)

/-- The source file gets its destination, and the copying begins. -/
theorem Stored.begin (hS : Stored c P s) {content : Content} {dest : DestinationFile}
    (hbound : dest.inode < s.inodes)
    (hstart : ∀ l, P l → s.backup l = some (.file dest.inode) → content = c ∧ dest.offset = 0) :
    Stored c P { s.setFile id (some { file with destination := some dest }) with
      pc := .copying id content 0 } := by
  refine ⟨hS.fresh, hS.single, fun id' n dst hheld => ?_, fun id' content' total hpc => ?_,
    fun l i hl hi => ?_⟩
  · obtain ⟨-, -, hdst⟩ | ⟨-, hheld⟩ := holds_update (s := s) rfl hheld
    · cases hdst
      exact hbound
    · exact hS.bound id' n dst hheld
  · cases hpc
    exact ⟨file.name, dest, _, Function.update_self _ _ _, rfl, rfl⟩
  · obtain ⟨t, ht, hpart, -⟩ := hS.part l i hl hi
    refine ⟨t, ht, hpart, fun id' content' total n dst hpc hheld hinode => ?_⟩
    cases hpc
    obtain ⟨-, -, hdst⟩ | ⟨hne, -⟩ := holds_update (s := s) rfl hheld
    · cases hdst
      obtain ⟨hcontent, hoffset⟩ := hstart l hl (hinode ▸ hi)
      exact ⟨hcontent, hoffset, Nat.zero_le _⟩
    · exact absurd rfl hne

theorem Stored.chunk (hS : Stored c P s) {total n : Nat} {content : Content}
    {dest : DestinationFile} (hpc : s.pc = .copying id content total) (hn : n ≠ 0)
    (hlen : total + n ≤ content.len) (hfile : s.heap id = some file)
    (hdest : file.destination = some dest) :
    Stored c P { s.setFile id (some { file with
        destination := some { dest with offset := dest.offset + n } }) with
      data := Function.update s.data dest.inode
        ((s.data dest.inode).write dest.offset (content.read total n))
      pc := .copying id content (total + n) } := by
  have hheld : Holds s id file.name dest := ⟨file, hfile, rfl, hdest⟩
  refine ⟨hS.fresh, hS.single, fun id' n' dst h => ?_, fun id' content' total' hpc' => ?_,
    fun l i hl hi => ?_⟩
  · obtain ⟨-, -, hdst⟩ | ⟨-, h⟩ := holds_update (s := s) rfl h
    · cases hdst
      exact hS.bound id file.name dest hheld
    · exact hS.bound id' n' dst h
  · cases hpc'
    exact ⟨file.name, _, _, Function.update_self _ _ _, rfl, rfl⟩
  · obtain ⟨t, ht, hpart, hcopy⟩ := hS.part l i hl hi
    by_cases hinode : dest.inode = i
    · obtain ⟨hcontent, hoffset, hle⟩ := hcopy id content total file.name dest hpc hheld hinode
      refine ⟨max t (total + n), ?_, ?_, fun id' content' total' n' dst hpc' h' hinode' => ?_⟩
      · rw [hcontent] at hlen
        exact max_le ht hlen
      · change Function.update s.data dest.inode _ i = _
        rw [hinode, Function.update_self, hpart, hoffset, hcontent]
        exact Content.truncate_write_within (Nat.pos_of_ne_zero hn) hle
      · cases hpc'
        obtain ⟨-, -, hdst⟩ | ⟨hne, -⟩ := holds_update (s := s) rfl h'
        · cases hdst
          exact ⟨hcontent, congrArg (· + n) hoffset, le_max_right _ _⟩
        · exact absurd rfl hne
    · refine ⟨t, ht, (Function.update_of_ne (Ne.symm hinode) _ _).trans hpart,
        fun id' content' total' n' dst hpc' h' hinode' => ?_⟩
      cases hpc'
      obtain ⟨-, -, hdst⟩ | ⟨hne, -⟩ := holds_update (s := s) rfl h'
      · cases hdst
        exact absurd hinode' hinode
      · exact absurd rfl hne

/-- What the files of the backup are after one has been renamed. -/
theorem renameBackup_files (h : s.renameBackup k l = .ok s') {m : List Path} {i : Nat}
    (hi : s'.backup m = some (.file i)) :
    m = l ∧ s.backup k = some (.file i) ∨ m ≠ k ∧ s.backup m = some (.file i) := by
  obtain ⟨inode, hk, -, rfl⟩ := renameBackup_cases h
  change Function.update (Function.update s.backup k none) l (some (Entry.file inode)) m = _ at hi
  rw [Function.update_apply] at hi
  split at hi
  · rename_i hm
    cases hi
    exact Or.inl ⟨hm, hk⟩
  · rw [Function.update_apply] at hi
    split at hi
    · cases hi
    · rename_i hm
      exact Or.inr ⟨hm, hi⟩

theorem Stored.moved (hS : Stored c P s) (h : s.renameBackup k l = .ok s') (hP : P l → P k) :
    Stored c P s' := by
  have hfiles := @renameBackup_files s s' k l h
  obtain ⟨inode, -, -, rfl⟩ := renameBackup_cases h
  refine ⟨fun m i hi => ?_, fun m m' i hi hi' => ?_, hS.bound, hS.writing, fun m i hm hi => ?_⟩
  · obtain ⟨-, hi⟩ | ⟨-, hi⟩ := hfiles hi
    · exact hS.fresh k i hi
    · exact hS.fresh m i hi
  · obtain ⟨hm, hi⟩ | ⟨hm, hi⟩ := hfiles hi
    · obtain ⟨hm', -⟩ | ⟨hm', hi'⟩ := hfiles hi'
      · rw [hm, hm']
      · exact absurd (hS.single m' k i hi' hi) hm'
    · obtain ⟨-, hi'⟩ | ⟨-, hi'⟩ := hfiles hi'
      · exact absurd (hS.single m k i hi hi') hm
      · exact hS.single m m' i hi hi'
  · obtain ⟨rfl, hi'⟩ | ⟨-, hi'⟩ := hfiles hi
    · exact hS.part k i (hP hm) hi'
    · exact hS.part m i hm hi'

/-! ## Who holds a destination afterwards -/

theorem holds_iff {s' : State} {file' : SourceFile} (hfile : s.heap id = some file)
    (hheap : s'.heap = Function.update s.heap id (some file')) (hname : file'.name = file.name)
    (hdest : file'.destination = file.destination) (id' : Nat) (n : List Path)
    (d : DestinationFile) : Holds s' id' n d ↔ Holds s id' n d := by
  refine ⟨holds_change hfile hheap hname (Or.inl hdest) id' n d, ?_⟩
  rintro ⟨f, hf, hn, hd⟩
  by_cases hid : id' = id
  · subst hid
    rw [hfile] at hf
    cases hf
    exact ⟨file', by rw [hheap, Function.update_self], hname.trans hn, hdest.trans hd⟩
  · exact ⟨f, by rw [hheap, Function.update_of_ne hid]; exact hf, hn, hd⟩

theorem holds_iff_add {name : List Path} {r : Nat} (hid : s.heap id = none)
    (hheap : s'.heap = Function.update s.heap id (some ⟨name, r, none⟩)) (id' : Nat)
    (n : List Path) (d : DestinationFile) : Holds s' id' n d ↔ Holds s id' n d := by
  refine ⟨holds_add hheap id' n d, ?_⟩
  rintro ⟨f, hf, hn, hd⟩
  refine ⟨f, ?_, hn, hd⟩
  rw [hheap, Function.update_of_ne]
  · exact hf
  · rintro rfl
    rw [hid] at hf
    cases hf

/-- The source file that moves takes its destination along. -/
theorem Stored.redirected (hS : Stored c P s) {dest : DestinationFile} {newName : List Path}
    (hfile : s.heap id = some file) (hbound : dest.inode < s.inodes)
    (hdest : ∀ dst, file.destination = some dst → dst = dest) :
    Stored c P { (s.remove k).put id ⟨newName, file.references, some { dest with path := l }⟩ with
      mover := .pushing l } := by
  have hheld : ∀ content total, s.pc = .copying id content total →
      file.destination = some dest := by
    intro content total hpc
    obtain ⟨n, dst, f, hf, -, hdst⟩ := hS.writing id content total hpc
    rw [hfile] at hf
    cases hf
    rw [hdst, hdest dst hdst]
  refine hS.carry rfl rfl rfl rfl (fun id' n dst h => ?_) (fun id' content total hpc n dst h => ?_)
    fun id' content total hpc => ?_
  · obtain ⟨-, -, hdst⟩ | ⟨-, h⟩ := holds_update (s := s) rfl h
    · cases hdst
      exact hbound
    · exact hS.bound id' n dst h
  · obtain ⟨rfl, -, hdst⟩ | ⟨-, h⟩ := holds_update (s := s) rfl h
    · cases hdst
      exact ⟨file.name, dest, ⟨file, hfile, rfl, hheld content total hpc⟩, rfl, rfl⟩
    · exact ⟨n, dst, h, rfl, rfl⟩
  · by_cases hid : id' = id
    · subst hid
      exact ⟨newName, _, _, Function.update_self _ _ _, rfl, rfl⟩
    · obtain ⟨n, dst, f, hf, hn, hdst⟩ := hS.writing id' content total hpc
      exact ⟨n, dst, f, (Function.update_of_ne hid _ _).trans hf, hn, hdst⟩

/-- The destination that a capture renames. -/
theorem Provides.path_eq {dest : DestinationFile} (h : Provides s file l s₁ dest)
    (hpath : ∀ dst, file.destination = some dst → dst.path = l) : dest.path = l := by
  obtain ⟨hdest, -⟩ | ⟨-, inode, -, rfl⟩ := h
  · exact hpath dest hdest
  · rfl

theorem Stored.advance (hC : Consistent s) (hS : Stored c P s) (h : Advance D old new s a s')
    (hcreate : a = .create → ∀ rel id content d file s₁ dest, s.pc = .opened rel id content →
      D.dirs[s.index]? = some d → s.fs.node (components d.1 ++ rel) ≠ none →
      s.heap id = some file → Provides s file (components d.2 ++ rel) s₁ dest →
      ∀ l, P l → s₁.backup l = some (.file dest.inode) → content = c ∧ dest.offset = 0)
    (hmove : ∀ oldDest newDest, Captures D old new oldDest newDest → P newDest → P oldDest)
    (hpath : a = .capture → ∀ oldDest newDest, Captures D old new oldDest newDest →
      ∀ id ∈ s.table (components old), ∀ dst ∈ s.destination id, dst.path = oldDest) :
    Stored c P s' := by
  cases h with
  | startDirectory => exact hS.past rfl rfl rfl (holds_same rfl) rfl
  | finish => exact hS.past rfl rfl rfl (holds_same rfl) rfl
  | endDirectory => exact hS.past rfl rfl rfl (holds_same rfl) rfl
  | exclude => exact hS.past rfl rfl rfl (holds_same rfl) rfl
  | vanish => exact hS.past rfl rfl rfl (holds_same rfl) rfl
  | find => exact hS.past rfl rfl rfl (holds_same rfl) rfl
  | scanOld => exact hS.past rfl rfl rfl (holds_same rfl) rfl
  | scanNew => exact hS.made.past rfl rfl rfl (holds_same rfl) rfl
  | list => exact hS.past rfl rfl rfl (holds_same rfl) rfl
  | attachOld _ _ _ hfile =>
    exact hS.past rfl rfl rfl (holds_change hfile rfl rfl (Or.inl rfl)) rfl
  | attachNew => exact hS.past rfl rfl rfl (holds_add rfl) rfl
  | openFile => exact hS.past rfl rfl rfl (holds_same rfl) rfl
  | openGone => exact hS.past rfl rfl rfl (holds_same rfl) rfl
  | createGone => exact hS.past rfl rfl rfl (holds_same rfl) rfl
  | @create rel id content d file s₁ dest hpc hd hnode hfile hprov =>
    obtain ⟨hS₁, hbound⟩ :=
      hS.provides (fun dst hdst => hS.bound id file.name dst ⟨file, hfile, rfl, hdst⟩) hprov
    exact hS₁.begin hbound (hcreate rfl rel id content d file s₁ dest hpc hd hnode hfile hprov)
  | endOfFile => exact hS.past rfl rfl rfl (holds_same rfl) rfl
  | copyChunk hpc hn hlen hfile hdest => exact hS.chunk hpc hn hlen hfile hdest
  | unhookShared => exact hS.past rfl rfl rfl (holds_same rfl) rfl
  | unhook _ hfile => exact hS.past rfl rfl rfl (holds_change hfile rfl rfl (Or.inr rfl)) rfl
  | releaseShared _ hfile =>
    exact hS.past rfl rfl rfl (holds_change hfile rfl rfl (Or.inl rfl)) rfl
  | releaseLast => exact hS.past rfl rfl rfl (holds_drop rfl) rfl
  | rename => exact hS.aside rfl rfl rfl rfl fun _ _ _ => Iff.rfl
  | ignore => exact hS.aside rfl rfl rfl rfl fun _ _ _ => Iff.rfl
  | refuseOld _ _ _ _ hfile => exact hS.aside rfl rfl rfl rfl (holds_iff hfile rfl rfl rfl)
  | refuseNew => exact hS.aside rfl rfl rfl rfl (holds_iff_add hC.heap_files rfl)
  | @moveOld oldDest newDest id rest file s₁ dest s₂ _ _ hcapt htable hfile hprov hren =>
    have hholds : ∀ dst, file.destination = some dst → Holds s id file.name dst :=
      fun dst hdst => ⟨file, hfile, rfl, hdst⟩
    have hold : dest.path = oldDest := by
      refine hprov.path_eq fun dst hdst => ?_
      exact hpath rfl oldDest newDest hcapt id (by rw [htable]; exact List.mem_cons_self) dst
        (mem_destination.mpr ⟨_, hholds dst hdst⟩)
    obtain ⟨hS₁, hbound⟩ := hS.provides (fun dst hdst => hS.bound id _ dst (hholds dst hdst)) hprov
    have hS₂ := hS₁.moved hren (hold ▸ hmove oldDest newDest hcapt)
    have honly := hprov.only.trans (renameBackup_only hren)
    obtain ⟨inode, -, -, rfl⟩ := renameBackup_cases hren
    refine hS₂.redirected (by rw [honly.heap]; exact hfile) hbound fun dst hdst => ?_
    obtain ⟨hdest, -⟩ | ⟨hnone, -⟩ := hprov
    · exact Option.some.inj (hdst.symm.trans hdest)
    · rw [hnone] at hdst
      cases hdst
  | @moveNew oldDest newDest s₁ dest s₂ _ _ hcapt _ hprov hren =>
    have hold : dest.path = oldDest := hprov.path_eq fun dst hdst => by cases hdst
    obtain ⟨hS₁, -⟩ := hS.provides (fun dst hdst => by cases hdst) hprov
    have hS₂ := hS₁.moved hren (hold ▸ hmove oldDest newDest hcapt)
    exact hS₂.aside rfl rfl rfl rfl fun _ _ _ => Iff.rfl
  | push => exact hS.aside rfl rfl rfl rfl fun _ _ _ => Iff.rfl
  | endSession => exact hS.aside rfl rfl rfl rfl fun _ _ _ => Iff.rfl

/-! ## Copies that stay written -/

/-- Files stay where they are in the backup, and do not get shorter. -/
theorem Advance.keeps_file (h : Advance D old new s a s')
    (hmove : a = .capture → ∀ entry, s'.mover ≠ .pushing entry)
    (hfresh : ∀ l i, s.backup l = some (.file i) → i < s.inodes) {l : List Path} {i : Nat}
    (hi : s.backup l = some (.file i)) :
    s'.backup l = some (.file i) ∧ (s.data i).len ≤ (s'.data i).len := by
  cases h with
  | scanNew _ _ _ _ hnew =>
    refine ⟨(Function.update_of_ne ?_ _ _).trans hi, le_rfl⟩
    rintro rfl
    rw [hi] at hnew
    cases hnew
  | create _ _ _ _ hprov =>
    obtain ⟨-, rfl⟩ | ⟨-, inode, hopen, -⟩ := hprov
    · exact ⟨hi, le_rfl⟩
    · obtain ⟨-, rfl⟩ | ⟨hnone, -, rfl⟩ := openCreate_cases hopen
      · exact ⟨hi, le_rfl⟩
      · refine ⟨(Function.update_of_ne ?_ _ _).trans hi, ?_⟩
        · rintro rfl
          rw [hi] at hnone
          cases hnone
        · exact (congrArg Content.len (Function.update_of_ne (Nat.ne_of_lt (hfresh l i hi)) _ _)).ge
  | @copyChunk id content total n file dest =>
    refine ⟨hi, ?_⟩
    change _ ≤ (Function.update s.data dest.inode _ i).len
    rw [Function.update_apply]
    split
    · rename_i hinode
      rw [hinode]
      exact Content.len_le_write _ _ _
    · exact le_rfl
  | moveOld => exact absurd rfl (hmove rfl _)
  | moveNew => exact absurd rfl (hmove rfl _)
  | _ => exact ⟨hi, le_rfl⟩

theorem Written.aside {len : Nat} (h : Written len k s) (hbackup : s'.backup = s.backup)
    (hdata : s'.data = s.data) (hpc : s'.pc = s.pc)
    (hdest : ∀ id n dst, Holds s' id n dst ↔ Holds s id n dst) : Written len k s' := by
  obtain ⟨i, hi, hwritten⟩ := h
  refine ⟨i, ?_, ?_⟩
  · rw [mem_inodeAt, hbackup]
    exact mem_inodeAt.mp hi
  · rw [hdata, hpc]
    refine hwritten.imp_right fun ⟨id, hid, dst, hdst, hinode⟩ => ⟨id, hid, dst, ?_, hinode⟩
    obtain ⟨n, hheld⟩ := mem_destination.mp hdst
    exact mem_destination.mpr ⟨n, (hdest id n dst).mpr hheld⟩

/-- The copier finishes the copies that it writes, and leaves the others as they are. -/
theorem Written.advance (hS : Stored c P s) (hk : P k) (hW : Written c.len k s)
    (h : Advance D old new s a s') (ha : a.byCopier = true) : Written c.len k s' := by
  obtain ⟨i, hi, hwritten⟩ := hW
  obtain ⟨hi', hlen⟩ := h.keeps_file (fun heq => by rw [heq] at ha; cases ha) hS.fresh
    (mem_inodeAt.mp hi)
  refine ⟨i, mem_inodeAt.mpr hi', ?_⟩
  obtain hfull | ⟨id, hid, dst, hdst, hinode⟩ := hwritten
  · exact Or.inl (hfull.trans hlen)
  · obtain ⟨content, total, hpc⟩ := mem_copies.mp hid
    obtain ⟨m, hheld⟩ := mem_destination.mp hdst
    obtain ⟨t, -, hpart, hcopy⟩ := hS.part k i hk (mem_inodeAt.mp hi)
    cases h with
    | endOfFile hpc' hend =>
      rw [hpc] at hpc'
      cases hpc'
      obtain ⟨rfl, -, hle⟩ := hcopy id content total m dst hpc hheld hinode
      refine Or.inl ?_
      change _ ≤ (s.data i).len
      rw [hpart, Content.truncate_len, ← hend]
      exact hle
    | @copyChunk id' content' total' n' file dest hpc' hn hlen' hfile hdest =>
      rw [hpc] at hpc'
      cases hpc'
      obtain ⟨f, hf, -, hd⟩ := hheld
      rw [hfile] at hf
      cases hf
      rw [hdest] at hd
      cases hd
      exact Or.inr ⟨id, rfl, _, mem_destination.mpr ⟨_, _, Function.update_self _ _ _, rfl, rfl⟩,
        hinode⟩
    | _ => simp_all [Action.byCopier]

/-- The copier begins to copy the file that it has come to. -/
theorem written_create {len j : Nat} {d : Path × Path} {front : List Path} {n : Path}
    (hP : Place D new k j d front n) (h : Advance D old new s .create s') (hindex : s.index = j)
    (hpc : s.pc.reads = some (front ++ [n])) (hnode : s.fs.node (components new) ≠ none)
    (hdest : ∀ id content file, s.pc = .opened (front ++ [n]) id content → s.heap id = some file →
      ∀ dst ∈ file.destination, s.backup k = some (.file dst.inode)) : Written len k s' := by
  have hpair : ∀ d', D.dirs[s.index]? = some d' → d' = d := by
    intro d' hd'
    rw [hindex, hP.pair] at hd'
    exact (Option.some.inj hd').symm
  cases h with
  | createGone hpc' hd' hgone =>
    rw [hpc'] at hpc
    rw [hpair _ hd', Option.some.inj hpc, ← hP.source] at hgone
    exact absurd hgone hnode
  | @create rel id content d' file s₁ dest hpc' hd' hthere hfile hprov =>
    rw [hpc'] at hpc
    have hrel : rel = front ++ [n] := Option.some.inj hpc
    have htarget : components d'.2 ++ rel = k := by rw [hpair _ hd', hP.target, hrel]
    have hat : s₁.backup k = some (.file dest.inode) := by
      obtain ⟨hdst, rfl⟩ | ⟨-, inode, hopen, rfl⟩ := hprov
      · exact hdest id content file (by rw [hpc', hrel]) hfile dest hdst
      · obtain ⟨hfound, rfl⟩ | ⟨-, rfl, rfl⟩ := openCreate_cases hopen
        · exact htarget ▸ hfound
        · rw [htarget]
          exact Function.update_self _ _ _
    exact ⟨dest.inode, mem_inodeAt.mpr hat, Or.inr ⟨id, rfl, dest,
      mem_destination.mpr ⟨_, _, Function.update_self _ _ _, rfl, rfl⟩, rfl⟩⟩

/-- A copy that has been written to its end is the content. -/
theorem Written.full (hS : Stored c P s) (hk : P k) (hW : Written c.len k s)
    (hpc : s.pc.copies = none) : ∃ i, s.backup k = some (.file i) ∧ s.data i = c := by
  obtain ⟨i, hi, hfull | ⟨id, hid, -⟩⟩ := hW
  · have hi' := mem_inodeAt.mp hi
    obtain ⟨t, ht, hpart, -⟩ := hS.part k i hk hi'
    rw [hpart, Content.truncate_len] at hfull
    exact ⟨i, hi', by rw [hpart, Nat.le_antisymm ht hfull, Content.truncate_self]⟩
  · rw [hpc] at hid
    cases hid

/-- A copy that moves stays written. -/
theorem Written.moved {len : Nat} (hW : Written len k s) (h : s.renameBackup k l = .ok s') :
    Written len l s' := by
  obtain ⟨i, hi, hwritten⟩ := hW
  obtain ⟨inode, hk, -, rfl⟩ := renameBackup_cases h
  rw [mem_inodeAt.mp hi] at hk
  cases hk
  exact ⟨i, mem_inodeAt.mpr (Function.update_self _ _ _), hwritten⟩

end TokuBackup.Moves
