import TokuBackup.Progress.Model

/-!
# The account of the bytes

While a directory is copied, the bytes backed up, those that are left of the current file and
those at the entries of the todo list are together the bytes of the directories so far. Each
step of the copier keeps this account.
-/

namespace TokuBackup.Progress

open Kernel Lib
open Copier (todoName entryPath dirEntries)

variable {D : DirectorySet} {tree : Path → SourceTree} {s s' : State} {d : Path × Path}
  {rel : List Path} {pending : List (List Path)} {t : Tree}

/-! ## Handling an entry -/

/-- What handling the entry `rel` does, with `rest` behind it on the todo list. -/
inductive Popped (D : DirectorySet) (T : Tree) (s : State) (source : Path) (rel : List Path)
    (rest : List (List Path)) : State → Prop
  | excluded (hex : D.excludeCopy (entryPath source rel) = true) :
      Popped D T s source rel rest { s with todo := rest.map todoName, pc := .loop }
  | other (hfind : T.find rel = some .other) :
      Popped D T s source rel rest { s with todo := rest.map todoName, pc := .loop }
  | file (size : Nat) (hex : D.excludeCopy (entryPath source rel) = false)
      (hfind : T.find rel = some (.regular size)) :
      Popped D T s source rel rest
        { s with todo := rest.map todoName, pc := .reading ⟨size, 0⟩ }
  | directory (listed : List (Path × Tree)) (names : List Path)
      (hex : D.excludeCopy (entryPath source rel) = false)
      (hfind : T.find rel = some (.directory listed))
      (hnames : names.Perm (listed.map Prod.fst)) :
      Popped D T s source rel rest
        { s with todo := (rest ++ names.map fun n => rel ++ [n]).map todoName, pc := .loop }

/-- The strings of the todo list lead to the entries they stand for. -/
theorem copyStrippedFile_eq {T : Tree} (hrel : ∀ n ∈ rel, IsEntry n) (source : Path)
    (entries : List Path) :
    copyStrippedFile D s T source (todoName rel) entries =
      copyFullPath D s T (entryPath source rel) (slashed rel) entries := by
  rw [copyStrippedFile]
  by_cases hnil : rel = []
  · subst hnil
    rfl
  · rw [if_neg fun hdot => hnil ((Copier.todoName_eq_dot hrel).mp hdot), todoName, entryPath,
      if_neg hnil, if_neg hnil]

theorem dirEntries_eq (entries : List Path) :
    dirEntries (slashed rel) entries =
      ((entries.filter fun name => !DoBackup.isDot name).map fun n => rel ++ [n]).map todoName := by
  rw [dirEntries, List.map_map]
  refine List.map_congr_left fun n _ => ?_
  exact Copier.todoName_concat.symm

section

variable {T : Tree} {source : Path} {rest : List (List Path)} {entries : List Path}

theorem popped_of_copyFullPath (hrel : ∀ n ∈ rel, IsEntry n) (hfind : T.find rel = some t)
    (h : copyFullPath D { s with todo := rest.map todoName } T (entryPath source rel)
      (slashed rel) entries = some s') : Popped D T s source rel rest s' := by
  unfold copyFullPath at h
  rw [components_slashed fun n hn => (hrel n hn).1] at h
  split at h
  · rename_i hex
    cases h
    exact .excluded hex
  · rename_i hex
    rw [Bool.not_eq_true] at hex
    split at h
    · rename_i hnone
      rw [hfind] at hnone
      cases hnone
    · rename_i size hsize
      cases h
      exact .file size hex hsize
    · rename_i hother
      cases h
      exact .other hother
    · rename_i listed hlisted
      split at h
      · rename_i hperm
        cases h
        rw [dirEntries_eq, ← List.map_append]
        exact .directory listed _ hex hlisted hperm
      · cases h

/-- There is an order in which `readdir` can list the directory. -/
theorem copyFullPath_some (hwf : T.WellFormed) (hfind : T.find rel = some t) :
    ∃ entries s', copyFullPath D s T (entryPath source rel) (slashed rel) entries = some s' := by
  obtain ⟨hrel, hwf'⟩ := hwf.find hfind
  unfold copyFullPath
  rw [components_slashed fun n hn => (hrel n hn).1, hfind]
  by_cases hex : D.excludeCopy (entryPath source rel) = true
  · exact ⟨[], _, if_pos hex⟩
  · cases hwf' with
    | regular size => exact ⟨[], _, if_neg hex⟩
    | other => exact ⟨[], _, if_neg hex⟩
    | directory listed hnodup hname hsub =>
      refine ⟨listed.map Prod.fst, _, (if_neg hex).trans (if_pos ?_)⟩
      rw [List.filter_eq_self.mpr]
      intro n hn
      obtain ⟨e, he, rfl⟩ := List.mem_map.mp hn
      obtain ⟨-, hdot, hdots⟩ := hname e he
      simp [DoBackup.isDot, hdot, hdots]

end

/-! ## The invariant -/

/-- Where a directory is being copied. -/
def Pc.Copies : Pc → Prop
  | .loop => True
  | .pop => True
  | .reading c => c.offset ≤ c.size
  | .range c _ _ => c.offset ≤ c.size
  | .write c _ _ => c.offset ≤ c.size
  | .throttle c => c.offset ≤ c.size
  | _ => False

/-- The bytes that are left of the current file. -/
def Pc.left : Pc → Nat
  | .reading c => c.size - c.offset
  | .range c n_read n_wrote_this_buf => c.size - c.offset + (n_read - n_wrote_this_buf)
  | .write c n_read n_wrote_this_buf => c.size - c.offset + (n_read - n_wrote_this_buf)
  | .throttle c => c.size - c.offset
  | _ => 0

/-- What is to be done in `copy_file_data`. -/
def Pc.work : Pc → Nat
  | .reading c => c.size - c.offset + 1
  | _ => 0

section

variable (D : DirectorySet) (tree : Path → SourceTree)

/-- The bytes at the entries of the todo list. -/
def bytesIn (i : Nat) (pending : List (List Path)) : Nat :=
  (pending.map (bytesAt D tree i)).sum

/-- The bytes and the entries at an entry, excluded or not. -/
def weightAt (i : Nat) (rel : List Path) : Nat :=
  (D.dirs[i]?).elim 0 fun d => (tree d.1).root.sumAt (fun _ => false) (· + 1) 1 rel

/-- A bound for what is left to do in a directory. -/
def weight (s : State) (pending : List (List Path)) : Nat :=
  s.pc.work + 2 * (pending.map (weightAt D tree s.index)).sum

/-- In the middle of a directory: `pending` are the entries on the todo list. -/
structure Working (s : State) (pending : List (List Path)) : Prop where
  copies : s.pc.Copies
  index : s.index < D.dirs.length
  todo : s.todo = pending.map todoName
  found : ∀ rel ∈ pending, ∀ d, D.dirs[s.index]? = some d →
    ∃ t, (tree d.1).root.find rel = some t
  total : s.totalBytesToBackUp = totalOf D tree s.index
  account : s.totalBytesBackedUp + s.pc.left + bytesIn D tree s.index pending =
    bytesBefore D tree (s.index + 1)

inductive Inv (s : State) : Prop
  | next (hpc : s.pc = .next) (hindex : s.index ≤ D.dirs.length) (htodo : s.todo = [])
      (hbytes : s.totalBytesBackedUp = bytesBefore D tree s.index)
      (htotal : ∀ i, s.index = i + 1 → s.totalBytesToBackUp = totalOf D tree i)
  | working (pending : List (List Path)) (h : Working D tree s pending)
  | returned (hpc : s.pc = .returned)
      (hbytes : s.totalBytesBackedUp = bytesBefore D tree D.dirs.length)
      (htotal : ∀ i, D.dirs.length = i + 1 → s.totalBytesToBackUp = totalOf D tree i)
  | failed (hpc : s.pc = .failed)

end

theorem inv_start (uninitialized : Nat) : Inv D tree (start uninitialized) := by
  refine .next rfl (Nat.zero_le _) rfl rfl fun i hi => ?_
  cases hi

theorem bytesBefore_succ (i : Nat) :
    bytesBefore D tree (i + 1) = bytesBefore D tree i + bytesOf D tree i := by
  rw [bytesBefore, List.range_succ, List.map_append, List.sum_append, List.map_singleton,
    List.sum_singleton, bytesBefore]

theorem bytesBefore_mono {i j : Nat} (h : i ≤ j) : bytesBefore D tree i ≤ bytesBefore D tree j := by
  induction h with
  | refl => exact le_rfl
  | step _ ih =>
    rw [bytesBefore_succ]
    exact ih.trans (Nat.le_add_right _ _)

theorem bytesAt_of_dir (hd : D.dirs[s.index]? = some d) (rel : List Path) :
    bytesAt D tree s.index rel =
      (tree d.1).root.sumAt (fun rel => D.excludeCopy (entryPath d.1 rel)) id 0 rel := by
  rw [bytesAt, hd]
  rfl

theorem bytesIn_cons (i : Nat) (rel : List Path) (pending : List (List Path)) :
    bytesIn D tree i (rel :: pending) = bytesAt D tree i rel + bytesIn D tree i pending := by
  rw [bytesIn, List.map_cons, List.sum_cons, bytesIn]

theorem bytesIn_append (i : Nat) (pending more : List (List Path)) :
    bytesIn D tree i (pending ++ more) = bytesIn D tree i pending + bytesIn D tree i more := by
  rw [bytesIn, List.map_append, List.sum_append, bytesIn, bytesIn]

/-! ## The steps -/

theorem weightAt_of_dir (hd : D.dirs[s.index]? = some d) (rel : List Path) :
    weightAt D tree s.index rel = (tree d.1).root.sumAt (fun _ => false) (· + 1) 1 rel := by
  rw [weightAt, hd]
  rfl

/-- The entries of a directory, in the place of the directory. -/
theorem sum_names (f : List Path → Nat) (names : List Path) (rel : List Path) :
    ((names.map fun n => rel ++ [n]).map f).sum = (names.map fun n => f (rel ++ [n])).sum := by
  rw [List.map_map]
  rfl

/-- Handling an entry leaves its bytes to the current file or to the todo list, and there is
less to do afterwards. -/
theorem Working.popped (h : Working D tree s (rel :: pending)) (hpc : s.pc = .pop)
    (hd : D.dirs[s.index]? = some d)
    (hp : Popped D (tree d.1).root s d.1 rel pending s') :
    ∃ pending', Working D tree s' pending' ∧
      weight D tree s' pending' < weight D tree s (rel :: pending) ∧
      (s'.pc = .loop ∨ ∃ c, s'.pc = .reading c) := by
  have hwf : (tree d.1).root.WellFormed := (tree d.1).wellFormed
  have haccount := h.account
  rw [hpc, bytesIn_cons, bytesAt_of_dir hd] at haccount
  have hweight : weight D tree s (rel :: pending) =
      2 * ((tree d.1).root.sumAt (fun _ => false) (· + 1) 1 rel +
        (pending.map (weightAt D tree s.index)).sum) := by
    rw [weight, hpc, List.map_cons, List.sum_cons, weightAt_of_dir hd]
    exact Nat.zero_add _
  have hfound : ∀ rel ∈ pending, ∀ d, D.dirs[s.index]? = some d →
      ∃ t, (tree d.1).root.find rel = some t :=
    fun rel hrel => h.found rel (List.mem_cons_of_mem _ hrel)
  rw [hweight]
  cases hp with
  | excluded hex =>
    obtain ⟨t, ht⟩ := h.found rel List.mem_cons_self d hd
    rw [Tree.sumAt_of_find ht, Tree.sum_skipped hex, Nat.zero_add] at haccount
    refine ⟨pending, ⟨trivial, h.index, rfl, hfound, h.total, haccount⟩, ?_, Or.inl rfl⟩
    have hpos := Tree.sumAt_pos ht
    simp only [weight, Pc.work]
    omega
  | other hfind =>
    rw [Tree.sumAt_of_find hfind, Tree.sum, ite_self, Nat.zero_add] at haccount
    refine ⟨pending, ⟨trivial, h.index, rfl, hfound, h.total, haccount⟩, ?_, Or.inl rfl⟩
    have hpos := Tree.sumAt_pos hfind
    simp only [weight, Pc.work]
    omega
  | file size hex hfind =>
    rw [Tree.sumAt_of_find hfind, Tree.sum, if_neg (by simp [hex])] at haccount
    refine ⟨pending, ⟨Nat.zero_le _, h.index, rfl, hfound, h.total, ?_⟩, ?_, Or.inr ⟨_, rfl⟩⟩
    · rw [← haccount]
      simp only [Pc.left, id]
      omega
    · rw [Tree.sumAt_of_find hfind, Tree.sum, if_neg (by simp)]
      simp only [weight, Pc.work]
      omega
  | directory listed names hex hfind hnames =>
    have hskip : (fun rel => D.excludeCopy (entryPath d.1 rel)) rel = false := hex
    rw [Tree.sumAt_directory hwf hfind hskip hnames] at haccount
    rw [Tree.sumAt_directory hwf hfind rfl hnames]
    refine ⟨pending ++ names.map fun n => rel ++ [n], ⟨trivial, h.index, rfl, ?_, h.total, ?_⟩, ?_,
      Or.inl rfl⟩
    · intro rel' hrel' d' hd'
      rcases List.mem_append.mp hrel' with hrel' | hrel'
      · exact hfound rel' hrel' d' hd'
      · obtain ⟨n, hn, rfl⟩ := List.mem_map.mp hrel'
        change D.dirs[s.index]? = some d' at hd'
        rw [hd] at hd'
        cases hd'
        obtain ⟨e, he, rfl⟩ := List.mem_map.mp (hnames.subset hn)
        refine ⟨e.2, ?_⟩
        rw [Tree.find_concat, hfind, Option.bind_some]
        cases (hwf.find hfind).2 with
        | directory listed hnodup hname hsub => exact lookup_of_mem hnodup he
    · have hmore : bytesIn D tree s.index (names.map fun n => rel ++ [n]) =
          (names.map fun n => (tree d.1).root.sumAt
            (fun rel => D.excludeCopy (entryPath d.1 rel)) id 0 (rel ++ [n])).sum := by
        rw [bytesIn, sum_names]
        exact congrArg List.sum (List.map_congr_left fun n _ => bytesAt_of_dir hd _)
      rw [← haccount, bytesIn_append]
      rw [show ({ s with todo := _, pc := Pc.loop } : State).index = s.index from rfl, hmore]
      simp only [Pc.left]
      omega
    · have hsum : ((pending ++ names.map fun n => rel ++ [n]).map (weightAt D tree s.index)).sum =
          (pending.map (weightAt D tree s.index)).sum +
            (names.map fun n =>
              (tree d.1).root.sumAt (fun _ => false) (· + 1) 1 (rel ++ [n])).sum := by
        rw [List.map_append, List.sum_append, sum_names]
        refine congrArg _ (congrArg List.sum (List.map_congr_left fun n _ => ?_))
        exact weightAt_of_dir hd _
      change Pc.work .loop +
        2 * ((pending ++ names.map fun n => rel ++ [n]).map (weightAt D tree s.index)).sum < _
      rw [hsum]
      simp only [Pc.work]
      omega

/-- A step within an entry. -/
theorem Working.within (h : Working D tree s pending) (hindex : s'.index = s.index)
    (htodo : s'.todo = s.todo) (htotal : s'.totalBytesToBackUp = s.totalBytesToBackUp)
    (hcopies : s'.pc.Copies)
    (hbytes : s'.totalBytesBackedUp + s'.pc.left = s.totalBytesBackedUp + s.pc.left) :
    Working D tree s' pending where
  copies := hcopies
  index := hindex ▸ h.index
  todo := htodo.trans h.todo
  found := by
    rw [hindex]
    exact h.found
  total := by
    rw [htotal, hindex]
    exact h.total
  account := by
    rw [hbytes, hindex]
    exact h.account

/-- The places of the code where a directory is being copied. -/
def Pc.inDirectory : Pc → Bool
  | .next | .returned | .failed => false
  | _ => true

theorem Inv.working_at {pc : Pc} (h : Inv D tree s) (hpc : s.pc = pc)
    (hin : pc.inDirectory = true) : ∃ pending, Working D tree s pending ∧ pc.Copies := by
  subst hpc
  cases h with
  | working pending h => exact ⟨pending, h, h.copies⟩
  | next hpc =>
    rw [hpc] at hin
    cases hin
  | returned hpc =>
    rw [hpc] at hin
    cases hin
  | failed hpc =>
    rw [hpc] at hin
    cases hin

/-- `do_copy` starts with the source directory on the todo list. -/
theorem working_begin (hd : D.dirs[s.index]? = some d) (htodo : s.todo = [])
    (hbytes : s.totalBytesBackedUp = bytesBefore D tree s.index) :
    Working D tree { s with
      todo := s.todo ++ [['.']]
      totalBytesToBackUp := dirsum (tree d.1).entries
      pc := .loop } [[]] where
  copies := trivial
  index := (List.getElem?_eq_some_iff.mp hd).1
  todo := by
    rw [htodo]
    rfl
  found rel hrel d' _ := by
    rw [List.mem_singleton.mp hrel]
    exact ⟨_, Tree.find_nil _⟩
  total := by
    rw [totalOf, hd]
    rfl
  account := by
    rw [bytesBefore_succ, ← hbytes]
    rfl

theorem inv_next (h : Inv D tree s) (hstep : stepNext D tree s = some s') : Inv D tree s' := by
  unfold stepNext at hstep
  split at hstep
  · rename_i hpc
    cases h with
    | working pending h =>
      have hcopies := h.copies
      rw [hpc] at hcopies
      exact absurd hcopies id
    | returned hpc' => rw [hpc] at hpc'; cases hpc'
    | failed hpc' => rw [hpc] at hpc'; cases hpc'
    | next _ hindex htodo hbytes htotal =>
      split at hstep
      · rename_i source dest hd
        cases hstep
        exact .working _ (working_begin hd htodo hbytes)
      · rename_i hnone
        cases hstep
        have hlast : s.index = D.dirs.length :=
          le_antisymm hindex (List.getElem?_eq_none_iff.mp hnone)
        rw [hlast] at hbytes htotal
        exact .returned rfl hbytes htotal
  · rename_i hpc
    split at hstep
    · rename_i hnil
      cases hstep
      obtain ⟨pending, h, -⟩ := h.working_at hpc rfl
      have hpending : pending = [] := List.map_eq_nil_iff.mp (h.todo.symm.trans hnil)
      have haccount := h.account
      rw [hpc, hpending] at haccount
      refine .next rfl h.index hnil haccount fun i hi => ?_
      cases hi
      exact h.total
    · cases hstep
  · rename_i c hpc
    cases hstep
    obtain ⟨pending, h, hcopies⟩ := h.working_at hpc rfl
    exact .working pending (h.within rfl rfl rfl hcopies (by rw [hpc]; rfl))
  · cases hstep

/-- A call of the callback keeps the todo list and what the open files have left to copy. -/
theorem polls_of_stepPoll {r : Int} (hstep : stepPoll s r = some s') :
    ∃ pc, s.pc.inDirectory = true ∧ (s.pc.Copies → pc.Copies) ∧ pc.left = s.pc.left ∧
      s' = { s.poll with pc := if r = 0 then pc else .failed } := by
  unfold stepPoll at hstep
  split at hstep
  · rename_i hpc
    split at hstep
    · cases hstep
    · cases hstep
      exact ⟨.pop, by rw [hpc]; rfl, fun _ => trivial, by rw [hpc]; rfl, rfl⟩
  · rename_i c n_read n_wrote_this_buf hpc
    cases hstep
    exact ⟨.write c n_read n_wrote_this_buf, by rw [hpc]; rfl, by rw [hpc]; exact id,
      by rw [hpc]; rfl, rfl⟩
  · rename_i c hpc
    cases hstep
    exact ⟨.throttle c, by rw [hpc]; rfl, by rw [hpc]; exact id, by rw [hpc], rfl⟩
  · cases hstep

theorem inv_poll {r : Int} (h : Inv D tree s) (hstep : stepPoll s r = some s') :
    Inv D tree s' := by
  obtain ⟨pc, hin, hcopies, hleft, rfl⟩ := polls_of_stepPoll hstep
  obtain ⟨pending, h, hpc⟩ := h.working_at rfl hin
  by_cases hr : r = 0
  · rw [if_pos hr]
    refine .working pending (h.within rfl rfl rfl (hcopies hpc) ?_)
    change s.totalBytesBackedUp + pc.left = _
    rw [hleft]
  · exact .failed (if_neg hr)

/-- What `stepPop` does, from what the todo list stands for. -/
theorem popped_of_stepPop {entries : List Path} (h : Inv D tree s)
    (hstep : stepPop D tree s entries = some s') :
    ∃ d rel pending, s.pc = .pop ∧ D.dirs[s.index]? = some d ∧ Working D tree s (rel :: pending) ∧
      Popped D (tree d.1).root s d.1 rel pending s' := by
  unfold stepPop at hstep
  split at hstep
  · rename_i file todo source dest hpc htodo hd
    obtain ⟨pending, hW, -⟩ := h.working_at hpc rfl
    have hpending := hW.todo.symm.trans htodo
    cases pending with
    | nil => cases hpending
    | cons rel pending =>
      obtain ⟨rfl, rfl⟩ := List.cons.inj hpending
      obtain ⟨t, ht⟩ := hW.found rel List.mem_cons_self _ hd
      have hrel := ((tree source).wellFormed.find ht).1
      rw [copyStrippedFile_eq hrel] at hstep
      exact ⟨(source, dest), rel, pending, hpc, hd, hW, popped_of_copyFullPath hrel ht hstep⟩
  · cases hstep

theorem inv_pop {entries : List Path} (h : Inv D tree s)
    (hstep : stepPop D tree s entries = some s') : Inv D tree s' := by
  obtain ⟨d, rel, pending, hpc, hd, hW, hp⟩ := popped_of_stepPop h hstep
  obtain ⟨pending', hW', -⟩ := hW.popped hpc hd hp
  exact .working pending' hW'

/-- A `read` moves the offset by what it takes into the buffer. -/
theorem reads_of_stepRead {n : Nat} (hstep : stepRead s n = some s') :
    ∃ pc, s.pc.inDirectory = true ∧ pc.Copies ∧ pc.left = s.pc.left ∧ s' = { s with pc := pc } := by
  unfold stepRead at hstep
  split at hstep
  · rename_i c hpc
    split at hstep
    · rename_i hn
      split at hstep
      · rename_i hzero
        cases hstep
        refine ⟨.loop, by rw [hpc]; rfl, trivial, ?_, rfl⟩
        rw [hpc]
        simp only [Pc.left, hn.2.2 hzero, Nat.sub_self]
      · cases hstep
        refine ⟨.range { c with offset := c.offset + n } n 0, by rw [hpc]; rfl, hn.2.1, ?_, rfl⟩
        rw [hpc]
        simp only [Pc.left]
        omega
    · cases hstep
  · cases hstep

theorem inv_read {n : Nat} (h : Inv D tree s) (hstep : stepRead s n = some s') :
    Inv D tree s' := by
  obtain ⟨pc, hin, hcopies, hleft, rfl⟩ := reads_of_stepRead hstep
  obtain ⟨pending, h, -⟩ := h.working_at rfl hin
  refine .working pending (h.within rfl rfl rfl hcopies ?_)
  change s.totalBytesBackedUp + pc.left = _
  rw [hleft]

/-- A `write` counts what it takes out of the buffer. -/
theorem writes_of_stepWrite {n : Nat} (hstep : stepWrite s n = some s') :
    ∃ pc, s.pc.inDirectory = true ∧ (s.pc.Copies → pc.Copies) ∧ n + pc.left = s.pc.left ∧
      s' = { s with totalBytesBackedUp := s.totalBytesBackedUp + n, pc := pc } := by
  unfold stepWrite at hstep
  split at hstep
  · rename_i c n_read n_wrote_this_buf hpc
    split at hstep
    · rename_i hn
      cases hstep
      refine ⟨_, by rw [hpc]; rfl, fun hcopies => ?_, ?_, rfl⟩
      · rw [hpc] at hcopies
        split
        · exact hcopies
        · exact hcopies
      · rw [hpc]
        split
        · simp only [Pc.left]
          omega
        · simp only [Pc.left]
          omega
    · cases hstep
  · cases hstep

theorem inv_write {n : Nat} (h : Inv D tree s) (hstep : stepWrite s n = some s') :
    Inv D tree s' := by
  obtain ⟨pc, hin, hcopies, hleft, rfl⟩ := writes_of_stepWrite hstep
  obtain ⟨pending, h, hpc⟩ := h.working_at rfl hin
  refine .working pending (h.within rfl rfl rfl (hcopies hpc) ?_)
  change s.totalBytesBackedUp + n + pc.left = _
  rw [← hleft, Nat.add_assoc]

theorem inv_step {a : Action} (h : Inv D tree s) (hstep : step D tree s a = some s') :
    Inv D tree s' := by
  cases a with
  | next => exact inv_next h hstep
  | poll r => exact inv_poll h hstep
  | pop entries => exact inv_pop h hstep
  | read n => exact inv_read h hstep
  | write n => exact inv_write h hstep
  | fail =>
    simp only [step] at hstep
    split at hstep
    · cases hstep
    · cases hstep
    · cases hstep
      exact .failed rfl

end TokuBackup.Progress
