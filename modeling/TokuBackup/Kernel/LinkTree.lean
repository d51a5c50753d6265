import Mathlib.Logic.Function.Basic
import TokuBackup.Kernel.FileSystem

/-!
# Symbolic links

A file system whose entries are directories, regular files and symbolic links, each found by
the components of its path. A path is walked from the root or the working directory; links on
the way are always followed, and the last component is followed by `realpath`, but not by
`unlink` and `rename`, which work on the entry itself.
-/

namespace TokuBackup.Kernel

inductive LinkNode where
  | directory
  | regular
  | link (target : Path)
  deriving DecidableEq

/-- The entries, and the working directory of the process. -/
structure LinkTree where
  entry : List Path → Option LinkNode
  cwd : List Path

/-- The absolute path with the components. -/
def absolute (l : List Path) : Path := if l = [] then ['/'] else slashed l

/-- `MAXSYMLINKS` -/
def maxSymlinks : Nat := 40

namespace LinkTree

/-- Where a walk comes to before it follows a link. -/
inductive Stop where
  | arrived (l : List Path)
  /-- A link in the directory `l`, with the components that are left after it. -/
  | link (l : List Path) (target : Path) (rest : List Path)
  | failed

/-- Walk from the directory `l` up to the first link that has to be followed. Without `follow`
the last component is not looked at, and does not have to exist. -/
def advance (t : LinkTree) (follow : Bool) : List Path → List Path → Stop
  | l, [] => .arrived l
  | l, n :: rest =>
    if n = ['.'] then t.advance follow l rest
    else if n = ['.', '.'] then t.advance follow l.dropLast rest
    else
      match t.entry (l ++ [n]) with
      | some .directory => t.advance follow (l ++ [n]) rest
      | some .regular => if rest = [] then .arrived (l ++ [n]) else .failed
      | some (.link target) =>
        if rest = [] ∧ follow = false then .arrived (l ++ [n]) else .link l target rest
      | none => if rest = [] ∧ follow = false then .arrived (l ++ [n]) else .failed

/-- Where a path is walked from, when `l` is the directory at hand. -/
def base (l : List Path) (path : Path) : List Path := if path.head? = some '/' then [] else l

/-- Walk on, through no more than `links` links. -/
def walk (t : LinkTree) (follow : Bool) : Nat → List Path → List Path → Option (List Path)
  | 0, l, names =>
    match t.advance follow l names with
    | .arrived l => some l
    | _ => none
  | links + 1, l, names =>
    match t.advance follow l names with
    | .arrived l => some l
    | .link l target rest => t.walk follow links (base l target) (components target ++ rest)
    | .failed => none

/-- The entry that a path leads to, with links followed. -/
def resolve (t : LinkTree) (path : Path) : Option (List Path) :=
  if path = [] then none else t.walk true maxSymlinks (base t.cwd path) (components path)

/-- The entry that a path names. -/
def named (t : LinkTree) (path : Path) : Option (List Path) :=
  if path = [] then none else t.walk false maxSymlinks (base t.cwd path) (components path)

/-- `realpath` -/
def realpath (t : LinkTree) (path : Path) : Option Path := (t.resolve path).map absolute

def set (t : LinkTree) (l : List Path) (v : Option LinkNode) : LinkTree :=
  { t with entry := Function.update t.entry l v }

/-- `unlink` of a file or a link; a path that ends with a slash names neither. -/
def unlink (t : LinkTree) (path : Path) : Option LinkTree := do
  if path.getLast? = some '/' then none
  let e ← t.named path
  match t.entry e with
  | none | some .directory => none
  | some _ => some (t.set e none)

/-- `rename` of a file or a link, also onto another one. Directories are not renamed here. -/
def rename (t : LinkTree) (oldpath newpath : Path) : Option LinkTree := do
  if oldpath.getLast? = some '/' ∨ newpath.getLast? = some '/' then none
  let e ← t.named oldpath
  let e' ← t.named newpath
  match t.entry e with
  | none | some .directory => none
  | some v => if t.entry e' = some .directory then none else some ((t.set e none).set e' (some v))

section

variable {t t' : LinkTree} {e e' k l names : List Path} {path : Path}

/-! ## Following the last component or not -/

/-- What exists lies in a directory, under a name; the working directory is one. -/
structure WellFormed (t : LinkTree) : Prop where
  root : t.entry [] = some .directory
  parent : ∀ l n, t.entry (l ++ [n]) ≠ none → t.entry l = some .directory ∧ IsEntry n
  cwd : t.entry t.cwd = some .directory

/-- A tree from a list of what exists. -/
def ofNodes (nodes : AList fun _ : List Path => LinkNode) (cwd : List Path) : LinkTree :=
  ⟨fun l => nodes.lookup l, cwd⟩

theorem WellFormed.dropLast (h : t.WellFormed) (hl : t.entry l = some .directory) :
    t.entry l.dropLast = some .directory := by
  cases l using List.reverseRecOn with
  | nil => exact h.root
  | append_singleton l n =>
    rw [List.dropLast_concat]
    exact (h.parent l n (by rw [hl]; simp)).1

/-- Where a walk that follows every link arrives. -/
def IsReal (t : LinkTree) (l : List Path) : Prop :=
  t.entry l = some .directory ∨ t.entry l = some .regular

/-- A link that a walk stops at is in a directory. -/
theorem WellFormed.advance_link (h : t.WellFormed) (hl : t.entry l = some .directory)
    {follow : Bool} {target : Path} {rest : List Path}
    (hstop : t.advance follow l names = .link k target rest) :
    t.entry k = some .directory ∧ ∀ n ∈ rest, n ∈ names := by
  induction names generalizing l with
  | nil => cases hstop
  | cons n names ih =>
    have hcons : (t.entry k = some .directory ∧ ∀ m ∈ rest, m ∈ names) →
        t.entry k = some .directory ∧ ∀ m ∈ rest, m ∈ n :: names := by
      rintro ⟨hdirectory, hmem⟩
      exact ⟨hdirectory, fun m hm => List.mem_cons_of_mem n (hmem m hm)⟩
    rw [LinkTree.advance] at hstop
    split at hstop
    · exact hcons (ih hl hstop)
    · split at hstop
      · exact hcons (ih (h.dropLast hl) hstop)
      · split at hstop
        · rename_i hdirectory
          exact hcons (ih hdirectory hstop)
        · split at hstop
          · cases hstop
          · cases hstop
        · split at hstop
          · cases hstop
          · cases hstop
            exact hcons ⟨hl, fun m hm => hm⟩
        · split at hstop
          · cases hstop
          · cases hstop

theorem WellFormed.advance (h : t.WellFormed) (hl : t.entry l = some .directory)
    (hstop : t.advance true l names = .arrived k) : t.IsReal k := by
  induction names generalizing l with
  | nil =>
    cases hstop
    exact Or.inl hl
  | cons n rest ih =>
    rw [LinkTree.advance] at hstop
    split at hstop
    · exact ih hl hstop
    · split at hstop
      · exact ih (h.dropLast hl) hstop
      · split at hstop
        · rename_i hdirectory
          exact ih hdirectory hstop
        · rename_i hregular
          split at hstop
          · cases hstop
            exact Or.inr hregular
          · cases hstop
        · rw [if_neg (by simp)] at hstop
          cases hstop
        · rw [if_neg (by simp)] at hstop
          cases hstop

theorem WellFormed.base (h : t.WellFormed) (hl : t.entry l = some .directory) (path : Path) :
    t.entry (base l path) = some .directory := by
  rw [LinkTree.base]
  split
  · exact h.root
  · exact hl

theorem WellFormed.walk (h : t.WellFormed) (links : Nat) (hl : t.entry l = some .directory)
    (hk : t.walk true links l names = some k) : t.IsReal k := by
  induction links generalizing l names with
  | zero =>
    rw [LinkTree.walk] at hk
    cases hstop : t.advance true l names with
    | arrived x =>
      rw [hstop] at hk
      cases hk
      exact h.advance hl hstop
    | link x target rest =>
      rw [hstop] at hk
      cases hk
    | failed =>
      rw [hstop] at hk
      cases hk
  | succ links ih =>
    rw [LinkTree.walk] at hk
    cases hstop : t.advance true l names with
    | arrived x =>
      rw [hstop] at hk
      cases hk
      exact h.advance hl hstop
    | link x target rest =>
      rw [hstop] at hk
      exact ih (h.base (h.advance_link hl hstop).1 target) hk
    | failed =>
      rw [hstop] at hk
      cases hk

theorem WellFormed.above (h : t.WellFormed) (hk : t.entry (l ++ k) ≠ none) :
    (k ≠ [] → t.entry l = some .directory) ∧ ∀ n ∈ k, IsEntry n := by
  induction k using List.reverseRecOn with
  | nil => exact ⟨fun hne => absurd rfl hne, fun n hn => absurd hn List.not_mem_nil⟩
  | append_singleton k n ih =>
    rw [← List.append_assoc] at hk
    obtain ⟨hdirectory, hentry⟩ := h.parent (l ++ k) n hk
    obtain ⟨habove, hnames⟩ := ih (by rw [hdirectory]; simp)
    refine ⟨fun _ => ?_, fun m hm => ?_⟩
    · by_cases hnil : k = []
      · rw [hnil, List.append_nil] at hdirectory
        exact hdirectory
      · exact habove hnil
    · obtain hm | hm := List.mem_append.mp hm
      · exact hnames m hm
      · rw [List.mem_singleton.mp hm]
        exact hentry

theorem IsReal.ne_none (h : t.IsReal l) : t.entry l ≠ none := by
  intro hnone
  rw [IsReal, hnone] at h
  obtain h | h := h
  · cases h
  · cases h

/-- The directories on the way to what exists are walked through. -/
theorem WellFormed.advance_real (h : t.WellFormed) (hk : t.IsReal (l ++ k)) :
    t.advance true l k = .arrived (l ++ k) := by
  induction k generalizing l with
  | nil => rw [LinkTree.advance, List.append_nil]
  | cons n rest ih =>
    have hassoc : l ++ n :: rest = l ++ [n] ++ rest := by simp
    have hentry : IsEntry n := (h.above hk.ne_none).2 n List.mem_cons_self
    rw [LinkTree.advance, if_neg hentry.2.1, if_neg hentry.2.2, hassoc]
    rw [hassoc] at hk
    by_cases hrest : rest = []
    · subst hrest
      rw [List.append_nil] at hk ⊢
      obtain hv | hv := hk
      · rw [hv]
        rfl
      · rw [hv]
        rfl
    · rw [(h.above hk.ne_none).1 hrest]
      exact ih hk

/-- `realpath` of what it has returned is the path itself. -/
theorem WellFormed.realpath (h : t.WellFormed) {r : Path} (hr : t.realpath path = some r) :
    t.realpath r = some r := by
  obtain ⟨k, hk, rfl⟩ := Option.map_eq_some_iff.mp hr
  have hreal : t.IsReal k := by
    rw [LinkTree.resolve] at hk
    split at hk
    · cases hk
    · exact h.walk maxSymlinks (h.base h.cwd path) hk
  have hnames : ∀ n ∈ k, IsName n := fun n hn =>
    ((h.above (l := []) hreal.ne_none).2 n hn).1
  have hcomponents : components (absolute k) = k := by
    rw [absolute]
    split
    · rename_i hnil
      rw [hnil, components_slash, components_nil]
    · exact components_slashed hnames
  have hhead : ∃ v, absolute k = '/' :: v := by
    rw [absolute]
    split
    · exact ⟨[], rfl⟩
    · rename_i hne
      obtain ⟨n, k', rfl⟩ := List.exists_cons_of_ne_nil hne
      exact ⟨_, slashed_cons n k'⟩
  obtain ⟨v, hv⟩ := hhead
  have hwalk : t.resolve (absolute k) = some k := by
    rw [LinkTree.resolve, if_neg (by rw [hv]; simp), hcomponents, LinkTree.base,
      if_pos (by rw [hv]; rfl), maxSymlinks, LinkTree.walk, h.advance_real (l := []) hreal]
    rfl
  rw [LinkTree.realpath, hwalk, Option.map_some]

/-! ## Where a new entry is made -/

/-- What may be named: a directory, or an entry of one, whether it exists or not. -/
def IsPlace (t : LinkTree) (l : List Path) : Prop :=
  t.entry l = some .directory ∨
    ∃ k n, l = k ++ [n] ∧ t.entry k = some .directory ∧ IsEntry n

theorem WellFormed.advance_place (h : t.WellFormed) (hl : t.entry l = some .directory)
    (hnames : ∀ n ∈ names, IsName n) (hstop : t.advance false l names = .arrived k) :
    t.IsPlace k := by
  induction names generalizing l with
  | nil =>
    cases hstop
    exact Or.inl hl
  | cons n rest ih =>
    have hrest : ∀ m ∈ rest, IsName m := fun m hm => hnames m (List.mem_cons_of_mem n hm)
    rw [LinkTree.advance] at hstop
    split at hstop
    · exact ih hl hrest hstop
    · rename_i hdot
      split at hstop
      · exact ih (h.dropLast hl) hrest hstop
      · rename_i hdots
        have hplace : t.IsPlace (l ++ [n]) :=
          Or.inr ⟨l, n, rfl, hl, hnames n List.mem_cons_self, hdot, hdots⟩
        split at hstop
        · rename_i hdirectory
          exact ih hdirectory hrest hstop
        · split at hstop
          · cases hstop
            exact hplace
          · cases hstop
        · split at hstop
          · cases hstop
            exact hplace
          · cases hstop
        · split at hstop
          · cases hstop
            exact hplace
          · cases hstop

theorem WellFormed.walk_place (h : t.WellFormed) (links : Nat) (hl : t.entry l = some .directory)
    (hnames : ∀ n ∈ names, IsName n) (hk : t.walk false links l names = some k) :
    t.IsPlace k := by
  induction links generalizing l names with
  | zero =>
    rw [LinkTree.walk] at hk
    split at hk
    · rename_i hstop
      cases hk
      exact h.advance_place hl hnames hstop
    · cases hk
  | succ links ih =>
    rw [LinkTree.walk] at hk
    split at hk
    · rename_i hstop
      cases hk
      exact h.advance_place hl hnames hstop
    · rename_i x target rest hstop
      obtain ⟨hx, hrest⟩ := h.advance_link hl hstop
      refine ih (h.base hx target) (fun n hn => ?_) hk
      obtain hn | hn := List.mem_append.mp hn
      · exact isName_of_mem_components hn
      · exact hnames n (hrest n hn)
    · cases hk

theorem WellFormed.named (h : t.WellFormed) (hk : t.named path = some k) : t.IsPlace k := by
  rw [LinkTree.named] at hk
  split at hk
  · cases hk
  · exact h.walk_place maxSymlinks (h.base h.cwd path) (fun n hn => isName_of_mem_components hn) hk

/-- A tree stays well-formed when a file or a link is renamed. -/
theorem WellFormed.rename (h : t.WellFormed) {oldpath newpath : Path}
    (hr : t.rename oldpath newpath = some t') : t'.WellFormed := by
  rw [LinkTree.rename] at hr
  split at hr
  · cases hr
  · obtain ⟨e, hold, hr⟩ := Option.bind_eq_some_iff.mp hr
    obtain ⟨e', hnew, hr⟩ := Option.bind_eq_some_iff.mp hr
    have hmoved : ∀ v, t.entry e = some v → v ≠ .directory → t.entry e' ≠ some .directory →
        t' = (t.set e none).set e' (some v) → t'.WellFormed := by
      intro v he hfile hfree ht'
      have hdirectory : ∀ l, t.entry l = some .directory → t'.entry l = some .directory := by
        intro l hl
        have hle : l ≠ e := fun heq => hfile (Option.some.inj (he.symm.trans (heq ▸ hl)))
        have hle' : l ≠ e' := fun heq => hfree (heq ▸ hl)
        rw [ht']
        exact (Function.update_of_ne hle' _ _).trans ((Function.update_of_ne hle _ _).trans hl)
      refine ⟨hdirectory [] h.root, fun l n hl => ?_, ?_⟩
      · by_cases hplace : l ++ [n] = e'
        · obtain hdir | ⟨k, m, hk, hkd, hm⟩ := h.named hnew
          · exact absurd hdir hfree
          · rw [hk] at hplace
            obtain ⟨rfl, hnm⟩ := List.append_inj' hplace rfl
            rw [List.singleton_inj.mp hnm]
            exact ⟨hdirectory l hkd, hm⟩
        · have hold : t.entry (l ++ [n]) ≠ none := by
            intro hnone
            refine hl ?_
            rw [ht']
            refine (Function.update_of_ne hplace _ _).trans ?_
            by_cases he : l ++ [n] = e
            · rw [he]
              exact Function.update_self _ _ _
            · exact (Function.update_of_ne he _ _).trans hnone
          obtain ⟨hparent, hentry⟩ := h.parent l n hold
          exact ⟨hdirectory l hparent, hentry⟩
      · rw [ht']
        have hcwd := hdirectory t.cwd h.cwd
        rw [ht'] at hcwd
        exact hcwd
    split at hr
    · cases hr
    · cases hr
    · rename_i v hne he
      split at hr
      · cases hr
      · rename_i hfree
        exact hmoved v he hne hfree (Option.some.inj hr).symm

/-! ## After a rename -/

/-- The file at `e` has moved to `e'`. -/
structure Moved (t t' : LinkTree) (e e' : List Path) : Prop where
  file : t.entry e = some .regular
  free : t.entry e' ≠ some .directory
  placed : t'.entry e' = some .regular
  gone : e ≠ e' → t'.entry e = none
  others : ∀ l, l ≠ e → l ≠ e' → t'.entry l = t.entry l

/-- A walk that ends at the new place ends there again, when it is followed after the move, or
nowhere. -/
theorem Moved.advance (h : Moved t t' e e') (l names : List Path) :
    t'.advance true l names = .failed ∨
      (t.advance false l names = .arrived e' → t'.advance true l names = .arrived e') ∧
      (∀ k target rest, t.advance false l names = .link k target rest →
        t'.advance true l names = .link k target rest) := by
  induction names generalizing l with
  | nil =>
    right
    refine ⟨fun hstop => hstop, fun k target rest hstop => ?_⟩
    cases hstop
  | cons n rest ih =>
    rw [LinkTree.advance, LinkTree.advance]
    split
    · exact ih l
    · split
      · exact ih l.dropLast
      · by_cases hplace : l ++ [n] = e'
        · rw [hplace, h.placed]
          by_cases hrest : rest = []
          · right
            refine ⟨fun _ => if_pos hrest, fun k target rest' hstop => ?_⟩
            subst hrest
            have hfree := h.free
            cases hv : t.entry e' with
            | none => simp [hv] at hstop
            | some v =>
              cases v with
              | directory => exact absurd hv hfree
              | regular => simp [hv] at hstop
              | link target' => simp [hv] at hstop
          · exact Or.inl (if_neg hrest)
        · by_cases hold : l ++ [n] = e
          · rw [hold, h.gone fun he => hplace (hold.trans he)]
            exact Or.inl (if_neg (by simp))
          · rw [h.others _ hold hplace]
            cases hv : t.entry (l ++ [n]) with
            | none => exact Or.inl (if_neg (by simp))
            | some v =>
              cases v with
              | directory => exact ih (l ++ [n])
              | regular => exact Or.inr ⟨id, fun _ _ _ => id⟩
              | link target' =>
                right
                by_cases hrest : rest = []
                · simp [hrest, hplace]
                · simp [hrest]

theorem Moved.walk (h : Moved t t' e e') (links : Nat) (l names : List Path)
    (hwalk : t.walk false links l names = some e') :
    t'.walk true links l names = none ∨ t'.walk true links l names = some e' := by
  induction links generalizing l names with
  | zero =>
    rw [LinkTree.walk] at hwalk ⊢
    obtain hfailed | ⟨harrived, -⟩ := h.advance l names
    · rw [hfailed]
      exact Or.inl rfl
    · cases hstop : t.advance false l names with
      | arrived x =>
        rw [hstop] at hwalk harrived
        cases hwalk
        rw [harrived rfl]
        exact Or.inr rfl
      | link k target rest =>
        rw [hstop] at hwalk
        cases hwalk
      | failed =>
        rw [hstop] at hwalk
        cases hwalk
  | succ links ih =>
    rw [LinkTree.walk] at hwalk ⊢
    obtain hfailed | ⟨harrived, hlink⟩ := h.advance l names
    · rw [hfailed]
      exact Or.inl rfl
    · cases hstop : t.advance false l names with
      | arrived x =>
        rw [hstop] at hwalk harrived
        cases hwalk
        rw [harrived rfl]
        exact Or.inr rfl
      | link k target rest =>
        rw [hstop] at hwalk
        rw [hlink k target rest hstop]
        exact ih _ _ hwalk
      | failed =>
        rw [hstop] at hwalk
        cases hwalk

/-- After a file was moved, its new path leads to where it is. -/
theorem Moved.resolve {newpath : Path} (h : Moved t t' e e') (hcwd : t'.cwd = t.cwd)
    (hnew : t.named newpath = some e') {k : List Path} (hk : t'.resolve newpath = some k) :
    k = e' := by
  rw [LinkTree.resolve] at hk
  rw [named] at hnew
  split at hk
  · cases hk
  · rename_i hne
    rw [if_neg hne] at hnew
    rw [hcwd] at hk
    obtain hnone | hsome := h.walk maxSymlinks (base t.cwd newpath) (components newpath) hnew
    · rw [hnone] at hk
      cases hk
    · rw [hsome] at hk
      exact (Option.some.inj hk).symm

end

end LinkTree

end TokuBackup.Kernel
