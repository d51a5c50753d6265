import TokuBackup.DoBackup.Model
import TokuBackup.Interpose.Model
import TokuBackup.Kernel.FileSystem
import Mathlib.Data.List.ReduceOption

/-!
# The directories above a path

`create_subdirectories` copies the path and moves a cursor over the copy. Where it finds a
`/` it writes a zero, which cuts the string there, makes the directory and writes the `/`
back. The models of the callers use the list of the prefixes instead; here the loop is shown
to make exactly these, whatever `mkdir` does.
-/

namespace TokuBackup.Subdirectories

open Kernel
open DoBackup (Errno)
open OpenPath (subdirectories errnoOf)

/-! ## The loop -/

/-- The memory of a string; `none` is the zero that ends it. -/
abbrev Buffer := List (Option Char)

def strdup (path : Path) : Buffer := path.map some ++ [none]

/-- The string that a call reads. -/
def text (directory : Buffer) : Path := (directory.takeWhile Option.isSome).reduceOption

/-- The inner loop, in the memory from `next_slash` on: it stops at a `/` or at the zero.
`none` when it leaves the memory. -/
def scanForSlash : Buffer → Nat → Option Nat
  | [], _ => none
  | none :: _, next_slash => some next_slash
  | some c :: rest, next_slash =>
    if c = '/' then some next_slash else scanForSlash rest (next_slash + 1)

section

variable {m : Type → Type} [Monad m] {Answer : Type} (mkdir : Path → m Answer)
  (errno : Answer → Option Errno) (stuck : m Int)

/-- The outer loop. An answer of `mkdir` without an errno is 0. What runs out of fuel or
leaves the memory is `stuck`. -/
def loop : Nat → Buffer → Nat → Int → m Int
  | 0, _, _, _ => stuck
  | fuel + 1, directory, next_slash, r =>
    match scanForSlash (directory.drop next_slash) next_slash with
    | none => stuck
    | some next_slash =>
      if directory[next_slash]? = some none then return r
      else
        let cut := directory.set next_slash none
        let back := cut.set next_slash (some '/')
        if cut.head? = some none then loop fuel back (next_slash + 1) r
        else do
          let answer ← mkdir (text cut)
          match errno answer with
          | some e => if e = .eexist then loop fuel back (next_slash + 1) 0 else return e.code
          | none => loop fuel back (next_slash + 1) 0

/-- `create_subdirectories` -/
def createSubdirectories (fuel : Nat) (path : Path) : m Int :=
  loop mkdir errno stuck fuel (strdup path) 1 0

end

/-! ## The prefixes -/

/-- The prefixes of `p ++ q` that end before a `/` of `q`. -/
def cuts : Path → Path → List Path
  | _, [] => []
  | p, c :: q => if c = '/' then p :: cuts (p ++ [c]) q else cuts (p ++ [c]) q

theorem cuts_of_notMem {p q : Path} (h : '/' ∉ q) : cuts p q = [] := by
  induction q generalizing p with
  | nil => rfl
  | cons c q ih =>
    rw [List.mem_cons, not_or] at h
    rw [cuts, if_neg (Ne.symm h.1)]
    exact ih h.2

theorem cuts_append {p u v : Path} (h : '/' ∉ u) :
    cuts p (u ++ '/' :: v) = (p ++ u) :: cuts (p ++ u ++ ['/']) v := by
  induction u generalizing p with
  | nil => simp [cuts]
  | cons c u ih =>
    rw [List.mem_cons, not_or] at h
    rw [List.cons_append, cuts, if_neg (Ne.symm h.1), ih h.2]
    simp

theorem cuts_eq (p q : Path) :
    cuts p q = ((List.range' p.length q.length).filter fun i => (p ++ q)[i]? = some '/').map
      fun i => (p ++ q).take i := by
  induction q generalizing p with
  | nil => rfl
  | cons c q ih =>
    have hrest := ih (p ++ [c])
    rw [List.length_append, List.length_singleton, List.append_assoc, List.singleton_append]
      at hrest
    have hat : (p ++ c :: q)[p.length]? = some c := by
      rw [List.getElem?_append_right le_rfl, Nat.sub_self, List.getElem?_cons_zero]
    rw [cuts, List.length_cons, List.range'_succ, List.filter_cons, hat, hrest]
    by_cases hc : c = '/'
    · subst hc
      simp
    · simp [hc]

/-- The prefixes that end before a `/` after the first character. -/
theorem subdirectories_cons (a : Char) (q : Path) :
    subdirectories (a :: q) = cuts [a] q := by
  have hrange : List.range (a :: q).length = 0 :: List.range' 1 q.length := by
    rw [List.range_eq_range', List.length_cons, List.range'_succ]
  have hfilter : (List.range' 1 q.length).filter (fun i => 0 < i ∧ (a :: q)[i]? = some '/') =
      (List.range' 1 q.length).filter fun i => (a :: q)[i]? = some '/' := by
    refine List.filter_congr fun i hi => ?_
    have hpos : 0 < i := (List.mem_range'_1.mp hi).1
    simp [hpos]
  rw [cuts_eq, subdirectories, hrange, List.filter_cons_of_neg (by simp), hfilter]
  rfl

/-! ## The memory -/

theorem strdup_append (p q : Path) : strdup (p ++ q) = p.map some ++ strdup q := by
  simp [strdup]

theorem strdup_drop (p q : Path) : (strdup (p ++ q)).drop p.length = strdup q := by
  rw [strdup_append, ← List.length_map (f := some), List.drop_left]

/-- The zero is found when there is no `/`. -/
theorem scanForSlash_end {q : Path} (h : '/' ∉ q) (n : Nat) :
    scanForSlash (strdup q) n = some (n + q.length) := by
  induction q generalizing n with
  | nil => rfl
  | cons c q ih =>
    rw [List.mem_cons, not_or] at h
    rw [show strdup (c :: q) = some c :: strdup q from rfl, scanForSlash, if_neg (Ne.symm h.1),
      ih h.2, List.length_cons]
    congr 1
    omega

/-- The first `/` is found. -/
theorem scanForSlash_slash {u v : Path} (h : '/' ∉ u) (n : Nat) :
    scanForSlash (strdup (u ++ '/' :: v)) n = some (n + u.length) := by
  induction u generalizing n with
  | nil => rfl
  | cons c u ih =>
    rw [List.mem_cons, not_or] at h
    rw [List.cons_append,
      show strdup (c :: (u ++ '/' :: v)) = some c :: strdup (u ++ '/' :: v) from rfl,
      scanForSlash, if_neg (Ne.symm h.1), ih h.2, List.length_cons]
    congr 1
    omega

theorem strdup_end (p : Path) : (strdup p)[p.length]? = some none := by
  rw [strdup, List.getElem?_append_right (by simp), List.length_map, Nat.sub_self]
  rfl

theorem strdup_slash (p v : Path) :
    (strdup (p ++ '/' :: v))[p.length]? = some (some '/') := by
  rw [strdup_append, List.getElem?_append_right (by simp), List.length_map, Nat.sub_self]
  rfl

theorem set_strdup (p v : Path) (c : Char) (o : Option Char) :
    (strdup (p ++ c :: v)).set p.length o = p.map some ++ o :: strdup v := by
  rw [strdup_append, List.set_append_right _ _ (by simp), List.length_map, Nat.sub_self]
  rfl

/-- The zero cuts the string. -/
theorem text_cut (p v : Path) : text (p.map some ++ none :: strdup v) = p := by
  rw [text, List.takeWhile_append_of_pos (by simp), List.takeWhile_cons_of_neg (by simp),
    List.append_nil]
  induction p with
  | nil => rfl
  | cons c p ih => rw [List.map_cons, List.reduceOption_cons_of_some, ih]

/-- Writing the `/` back restores the copy. -/
theorem set_back (p v : Path) :
    (p.map some ++ none :: strdup v).set p.length (some '/') = strdup (p ++ '/' :: v) := by
  rw [List.set_append_right _ _ (by simp), List.length_map, Nat.sub_self, strdup_append]
  rfl

/-! ## The loop makes the prefixes -/

section

variable {m : Type → Type} [Monad m] {Answer : Type} {mkdir : Path → m Answer}
  {errno : Answer → Option Errno} {stuck : m Int}

/-- From a cursor after `p`, with `q` still to come, the loop makes the prefixes that end in
`q`. By induction on the fuel: a round takes the part of `q` up to its first `/`. -/
theorem loop_eq {fuel : Nat} {p q : Path} (hp : p ≠ []) (hfuel : q.length < fuel) :
    loop mkdir errno stuck fuel (strdup (p ++ q)) p.length 0 =
      OpenPath.createSubdirectories mkdir errno (cuts p q) := by
  induction fuel generalizing p q with
  | zero => exact absurd hfuel (Nat.not_lt_zero _)
  | succ fuel ih =>
    by_cases hslash : '/' ∈ q
    · obtain ⟨u, v, rfl, hu⟩ := List.eq_append_cons_of_mem hslash
      have hpu : p ++ u ≠ [] := List.append_ne_nil_of_left_ne_nil hp u
      have hpath : p ++ (u ++ '/' :: v) = p ++ u ++ '/' :: v := (List.append_assoc _ _ _).symm
      rw [List.length_append, List.length_cons] at hfuel
      have hrest := ih (p := p ++ u ++ ['/']) (q := v) (List.append_ne_nil_of_left_ne_nil hpu _)
        (by omega)
      have hcursor : (p ++ u ++ ['/']).length = (p ++ u).length + 1 :=
        List.length_append.trans rfl
      rw [List.append_assoc (p ++ u), List.singleton_append, hcursor] at hrest
      have hhead : ((p ++ u).map some ++ none :: strdup v).head? ≠ some none := by
        obtain ⟨c, w, hc⟩ := List.exists_cons_of_ne_nil hpu
        rw [hc]
        simp
      rw [loop, strdup_drop, scanForSlash_slash hu, cuts_append hu, OpenPath.createSubdirectories]
      simp only
      rw [← List.length_append, hpath, strdup_slash, if_neg (by simp), set_strdup, set_back,
        if_neg hhead, text_cut]
      refine congrArg (bind _) (funext fun answer => ?_)
      cases errno answer with
      | none => exact hrest
      | some e =>
        dsimp only
        rw [hrest]
    · rw [loop, strdup_drop, scanForSlash_end hslash, cuts_of_notMem hslash,
        OpenPath.createSubdirectories]
      simp only
      rw [← List.length_append, strdup_end, if_pos rfl]

/-- `create_subdirectories` returns, and what it does is the loop over the prefixes. -/
theorem createSubdirectories_eq {fuel : Nat} {path : Path} (hpath : path ≠ [])
    (hfuel : path.length ≤ fuel) :
    createSubdirectories mkdir errno stuck fuel path =
      OpenPath.createSubdirectories mkdir errno (subdirectories path) := by
  obtain ⟨a, q, rfl⟩ := List.exists_cons_of_ne_nil hpath
  rw [subdirectories_cons, createSubdirectories]
  exact loop_eq (List.cons_ne_nil a []) hfuel

end

/-! ### The callers' models -/

/-- The captured calls: the loop of their model is the one of the source. -/
theorem interpose_createSubdirectories {fuel : Nat} {path : Path} (hpath : path ≠ [])
    (hfuel : path.length ≤ fuel) (stuck : Interpose.CallM Int) :
    createSubdirectories (fun d => Interpose.backup (.mkdir d)) errnoOf stuck fuel path =
      Interpose.createSubdirectories (subdirectories path) :=
  createSubdirectories_eq hpath hfuel

/-- The backup thread. -/
theorem doBackup_createSubdirectories {fuel : Nat} {path : Path} (hpath : path ≠ [])
    (hfuel : path.length ≤ fuel) (stuck : DoBackup.BackupM Int) :
    createSubdirectories (fun d => DoBackup.mkdirBackup d) (fun answer => answer) stuck fuel path =
      DoBackup.createSubdirectories (subdirectories path) :=
  createSubdirectories_eq hpath hfuel

/-! ## On a file system -/

/-- `mkdir` on a file system, with what its manual says about what exists afterwards. -/
structure FileSystem (σ : Type) where
  /-- The errno, if it fails, and the file system after it. -/
  mkdir : Path → σ → Option Errno × σ
  Exists : Path → σ → Prop
  made : ∀ p s, (mkdir p s).1 = none → Exists p (mkdir p s).2
  found : ∀ p s, (mkdir p s).1 = some .eexist → Exists p s
  keeps : ∀ p q s, Exists q s → Exists q (mkdir p s).2

/-- The call does not stop the loop. -/
def Accepted (answer : Option Errno) : Prop := answer = none ∨ answer = some .eexist

section

variable {σ : Type} (M : FileSystem σ)

/-- `mkdir`, with a record of the calls and their answers. -/
def FileSystem.attempt (p : Path) : StateT (σ × List (Path × Option Errno)) Option (Option Errno) :=
  fun s => some ((M.mkdir p s.1).1, (M.mkdir p s.1).2, s.2 ++ [(p, (M.mkdir p s.1).1)])

/-- How the calls for `paths` go when the loop returns `r` in the file system `s`. -/
structure Outcome (paths : List Path) (r : Int) (s : σ) (calls : List (Path × Option Errno)) :
    Prop where
  attempted : calls.map Prod.fst <+: paths
  zero : r = 0 → calls.map Prod.fst = paths ∧ (∀ a ∈ calls, Accepted a.2) ∧
    ∀ p ∈ paths, M.Exists p s
  error : r ≠ 0 → ∃ before p e, calls = before ++ [(p, some e)] ∧
    (∀ a ∈ before, Accepted a.2) ∧ e ≠ .eexist ∧ r = e.code

variable {M}

theorem FileSystem.exists_of_accepted {p : Path} {s : σ} (h : Accepted (M.mkdir p s).1) :
    M.Exists p (M.mkdir p s).2 := by
  rcases h with h | h
  · exact M.made p s h
  · exact M.keeps p p s (M.found p s h)

/-- An accepted call before the others. -/
theorem Outcome.cons {p : Path} {paths : List Path} {r : Int} {s s' : σ}
    {calls : List (Path × Option Errno)} {answer : Option Errno} (h : Outcome M paths r s' calls)
    (ha : Accepted answer) (hp : M.Exists p s) (hkeep : ∀ q, M.Exists q s → M.Exists q s') :
    Outcome M (p :: paths) r s' ((p, answer) :: calls) where
  attempted := (List.prefix_cons_inj p).mpr h.attempted
  zero hr := by
    obtain ⟨hall, haccepted, hexists⟩ := h.zero hr
    refine ⟨by rw [List.map_cons, hall], List.forall_mem_cons.mpr ⟨ha, haccepted⟩, ?_⟩
    exact List.forall_mem_cons.mpr ⟨hkeep p hp, hexists⟩
  error hr := by
    obtain ⟨before, q, e, rfl, haccepted, he⟩ := h.error hr
    exact ⟨(p, answer) :: before, q, e, rfl, List.forall_mem_cons.mpr ⟨ha, haccepted⟩, he⟩

theorem made_accepted {p : Path} {paths : List Path} {s : σ}
    {done : List (Path × Option Errno)} (ha : Accepted (M.mkdir p s).1) :
    OpenPath.createSubdirectories M.attempt id (p :: paths) (s, done) =
      OpenPath.createSubdirectories M.attempt id paths
        ((M.mkdir p s).2, done ++ [(p, (M.mkdir p s).1)]) := by
  rcases ha with ha | ha
  · simp [OpenPath.createSubdirectories, FileSystem.attempt, bind, StateT.bind, ha]
  · simp [OpenPath.createSubdirectories, FileSystem.attempt, bind, StateT.bind, ha]

theorem made_error {p : Path} {paths : List Path} {s : σ}
    {done : List (Path × Option Errno)} {e : Errno} (ha : (M.mkdir p s).1 = some e)
    (he : e ≠ Errno.eexist) :
    OpenPath.createSubdirectories M.attempt id (p :: paths) (s, done) =
      some (e.code, (M.mkdir p s).2, done ++ [(p, some e)]) := by
  simp only [OpenPath.createSubdirectories, FileSystem.attempt, bind, StateT.bind,
    Option.bind_some, ha, id_eq, if_neg he]
  rfl

/-- The loop over the prefixes, by induction on them: an accepted call leaves the rest to
do, any other ends the loop. -/
theorem made_attempt (paths : List Path) (s : σ) (done : List (Path × Option Errno)) :
    ∃ r s' calls,
      OpenPath.createSubdirectories M.attempt id paths (s, done) = some (r, s', done ++ calls) ∧
      (∀ p, M.Exists p s → M.Exists p s') ∧ Outcome M paths r s' calls := by
  induction paths generalizing s done with
  | nil =>
    refine ⟨0, s, [], by rw [List.append_nil]; rfl, fun p hp => hp, ⟨List.nil_prefix, ?_, ?_⟩⟩
    · exact fun _ => ⟨rfl, by simp, by simp⟩
    · exact fun hr => absurd rfl hr
  | cons p paths ih =>
    by_cases ha : Accepted (M.mkdir p s).1
    · obtain ⟨r, s', calls, hrun, hkeep, hout⟩ :=
        ih (M.mkdir p s).2 (done ++ [(p, (M.mkdir p s).1)])
      rw [List.append_assoc, List.singleton_append, ← made_accepted ha] at hrun
      exact ⟨r, s', _, hrun, fun q hq => hkeep q (M.keeps p q s hq),
        hout.cons ha (M.exists_of_accepted ha) hkeep⟩
    · obtain ⟨e, he⟩ : ∃ e, (M.mkdir p s).1 = some e :=
        Option.ne_none_iff_exists'.mp fun hnone => ha (Or.inl hnone)
      have hne : e ≠ Errno.eexist := by
        rintro rfl
        exact ha (Or.inr he)
      refine ⟨e.code, (M.mkdir p s).2, [(p, some e)], made_error he hne,
        fun q hq => M.keeps p q s hq, ⟨?_, ?_, ?_⟩⟩
      · exact List.cons_prefix_cons.mpr ⟨rfl, List.nil_prefix⟩
      · exact fun hr => absurd hr e.code_ne
      · exact fun _ => ⟨[], p, e, rfl, by simp, hne, rfl⟩

/-! ### The prefixes in order -/

theorem mem_subdirectories {path p : Path} :
    p ∈ subdirectories path ↔ ∃ i, 0 < i ∧ path[i]? = some '/' ∧ p = path.take i := by
  rw [subdirectories, List.mem_map]
  constructor
  · rintro ⟨i, hi, rfl⟩
    have hcond := of_decide_eq_true (List.mem_filter.mp hi).2
    exact ⟨i, hcond.1, hcond.2, rfl⟩
  · rintro ⟨i, hpos, hslash, rfl⟩
    have hlt : i < path.length := (List.getElem?_eq_some_iff.mp hslash).1
    exact ⟨i, List.mem_filter.mpr ⟨List.mem_range.mpr hlt, decide_eq_true ⟨hpos, hslash⟩⟩, rfl⟩

/-- Each prefix is shorter than the ones after it. -/
theorem subdirectories_pairwise (path : Path) :
    (subdirectories path).Pairwise fun p q => p.length < q.length := by
  rw [subdirectories, List.pairwise_map]
  refine ((List.pairwise_lt_range (n := path.length)).sublist List.filter_sublist).imp_of_mem ?_
  intro i j _ hj hij
  have hlt := List.mem_range.mp (List.mem_filter.mp hj).1
  rw [List.length_take, List.length_take]
  omega

theorem length_lt_of_mem_subdirectories {path p : Path}
    (h : p ∈ subdirectories path) : p.length < path.length := by
  obtain ⟨i, -, hslash, rfl⟩ := mem_subdirectories.mp h
  have hlt : i < path.length := (List.getElem?_eq_some_iff.mp hslash).1
  rw [List.length_take]
  omega

/-- `create_subdirectories` makes exactly the directories above the path. -/
theorem create_subdirectories_exact (M : FileSystem σ) {fuel : Nat} {path : Path}
    (hpath : path ≠ []) (hfuel : path.length ≤ fuel) (s : σ) :
    (∃ r s' calls,
      createSubdirectories M.attempt id failure fuel path (s, []) = some (r, s', calls) ∧
      Outcome M (subdirectories path) r s' calls ∧ path ∉ calls.map Prod.fst) ∧
    (∀ p, p ∈ subdirectories path ↔
      ∃ i, 0 < i ∧ path[i]? = some '/' ∧ p = path.take i) ∧
    (subdirectories path).Pairwise fun p q => p.length < q.length := by
  refine ⟨?_, fun p => mem_subdirectories, subdirectories_pairwise path⟩
  obtain ⟨r, s', calls, hrun, -, hout⟩ :=
    made_attempt (M := M) (subdirectories path) s []
  refine ⟨r, s', calls, ?_, hout, fun hmem => ?_⟩
  · rw [createSubdirectories_eq hpath hfuel]
    exact hrun
  · have hlt := length_lt_of_mem_subdirectories (hout.attempted.subset hmem)
    exact absurd hlt (lt_irrefl _)

end

/-! ### The file system of the kernel model -/

/-- What the path names exists; every directory has `.` and `..`. -/
def Present (path : Path) (fs : Fs) : Prop :=
  fs.node (components path) ≠ none ∨
    ∃ l n, components path = l ++ [n] ∧ (n = ['.'] ∨ n = ['.', '.']) ∧ fs.node l = some .directory

theorem node_of_mkdir {fs fs' : Fs} {path : Path} (h : fs.mkdir path = .ok fs') (k : List Path) :
    fs'.node k = if k = components path then some .directory else fs.node k := by
  unfold Fs.mkdir Fs.create at h
  split_ifs at h
  cases h
  exact Fs.node_set

/-- A `mkdir` keeps what exists. -/
theorem present_mkdir {fs fs' : Fs} {path q : Path} (h : fs.mkdir path = .ok fs')
    (hq : Present q fs) : Present q fs' := by
  rcases hq with hq | ⟨l, n, hl, hn, hdir⟩
  · left
    rw [node_of_mkdir h]
    split
    · exact Option.some_ne_none _
    · exact hq
  · right
    refine ⟨l, n, hl, hn, ?_⟩
    rw [node_of_mkdir h]
    split
    · rfl
    · exact hdir

theorem absence_ne_eexist (fs : Fs) (l : List Path) : fs.absence l ≠ .eexist := by
  rw [Fs.absence]
  split <;> simp

theorem present_of_eexist {fs : Fs} {path : Path} (h : fs.mkdir path = .error .eexist) :
    Present path fs := by
  unfold Fs.mkdir Fs.create at h
  split_ifs at h with hnode hk hdir hn
  · refine Or.inr ⟨(components path).dropLast, (components path).getLast hk,
      (List.dropLast_append_getLast hk).symm, ?_, hdir⟩
    have hname : IsName ((components path).getLast hk) :=
      isName_of_mem_components (List.getLast_mem hk)
    by_contra hdots
    rw [not_or] at hdots
    exact hn ⟨hname, hdots⟩
  · exact absurd (Except.error.inj h) (absence_ne_eexist fs _)
  · cases h
  · exact Or.inl hnode

theorem errno_ne_zero (e : FsError) : e.errno ≠ 0 := by
  cases e <;> decide

def fsErrno (e : FsError) : Errno := ⟨e.errno, errno_ne_zero e⟩

theorem fsErrno_eexist {e : FsError} (h : fsErrno e = Errno.eexist) : e = .eexist := by
  cases e with
  | eexist => rfl
  | enoent => exact absurd h (by decide)
  | enotdir => exact absurd h (by decide)
  | eisdir => exact absurd h (by decide)

def mkdirOf (path : Path) (fs : Fs) : Option Errno × Fs :=
  match fs.mkdir path with
  | .ok fs' => (none, fs')
  | .error e => (some (fsErrno e), fs)

def kernel : FileSystem Fs where
  mkdir := mkdirOf
  Exists := Present
  made p fs h := by
    rw [mkdirOf] at h ⊢
    cases hmkdir : fs.mkdir p with
    | error e =>
      rw [hmkdir] at h
      cases h
    | ok fs' =>
      left
      rw [node_of_mkdir hmkdir, if_pos rfl]
      exact Option.some_ne_none _
  found p fs h := by
    rw [mkdirOf] at h
    cases hmkdir : fs.mkdir p with
    | ok fs' =>
      rw [hmkdir] at h
      cases h
    | error e =>
      rw [hmkdir] at h
      have he := fsErrno_eexist (Option.some.inj h)
      rw [he] at hmkdir
      exact present_of_eexist hmkdir
  keeps p q fs hq := by
    rw [mkdirOf]
    cases hmkdir : fs.mkdir p with
    | error e => exact hq
    | ok fs' => exact present_mkdir hmkdir hq

/-- The root directory alone. -/
def root : Fs := Fs.ofNodes (AList.singleton [] .directory) (by simp)

theorem create_subdirectories_exact_root :
    (∃ r s' calls,
      createSubdirectories kernel.attempt id failure 8 "/a//b/c/".toList (root, []) =
        some (r, s', calls) ∧
      Outcome kernel (subdirectories "/a//b/c/".toList) r s' calls ∧
        "/a//b/c/".toList ∉ calls.map Prod.fst) ∧
    (∀ p, p ∈ subdirectories "/a//b/c/".toList ↔
      ∃ i, 0 < i ∧ "/a//b/c/".toList[i]? = some '/' ∧ p = "/a//b/c/".toList.take i) ∧
    (subdirectories "/a//b/c/".toList).Pairwise fun p q => p.length < q.length :=
  create_subdirectories_exact kernel (by decide) (by decide) root

end TokuBackup.Subdirectories
