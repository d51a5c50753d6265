import Mathlib.Data.List.Induction
import TokuBackup.Kernel.Path

/-!
# Components

The names between the slashes of a path. Absolute paths without symbolic links, and without
`.` and `..`, denote the same file exactly when their components agree.
-/

namespace TokuBackup.Kernel

/-- The names between the slashes; empty ones do not count. -/
def components (p : Path) : List Path := (p.splitOn '/').filter (· ≠ [])

/-- What a directory entry may be called. -/
def IsName (n : Path) : Prop := n ≠ [] ∧ '/' ∉ n

/-- A name that a directory may list besides `.` and `..`. -/
def IsEntry (n : Path) : Prop := IsName n ∧ n ≠ ['.'] ∧ n ≠ ['.', '.']

instance : DecidablePred IsEntry := fun n =>
  inferInstanceAs (Decidable ((n ≠ [] ∧ '/' ∉ n) ∧ n ≠ ['.'] ∧ n ≠ ['.', '.']))

/-- Each name after a slash. -/
def slashed (names : List Path) : Path := names.flatMap fun n => '/' :: n

/-- What `realpath` returns. -/
def IsRealPath (p : Path) : Prop :=
  p = ['/'] ∨ ∃ names, names ≠ [] ∧ (∀ n ∈ names, IsName n) ∧ p = slashed names

variable {p q n w x : Path} {names : List Path}

@[simp] theorem components_nil : components [] = [] := by
  simp [components]

theorem components_append_slash (p q : Path) :
    components (p ++ '/' :: q) = components p ++ components q := by
  rw [components, List.splitOn_append_cons_self, List.filter_append]
  rfl

@[simp] theorem components_slash (q : Path) : components ('/' :: q) = components q := by
  have h := components_append_slash [] q
  rwa [components_nil, List.nil_append, List.nil_append] at h

@[simp] theorem components_append_last (p : Path) : components (p ++ ['/']) = components p := by
  rw [components_append_slash, components_nil, List.append_nil]

theorem components_name (h : IsName n) : components n = [n] := by
  obtain ⟨hne, hslash⟩ := h
  rw [components, List.splitOn_eq_singleton hslash]
  simp [hne]

theorem isName_of_mem_components (h : n ∈ components p) : IsName n := by
  induction hlength : p.length using Nat.strongRecOn generalizing p with
  | ind m ih =>
    by_cases hslash : '/' ∈ p
    · obtain ⟨a, b, rfl⟩ := List.append_of_mem hslash
      rw [components_append_slash] at h
      rw [List.length_append, List.length_cons] at hlength
      obtain h | h := List.mem_append.mp h
      · exact ih a.length (by omega) h rfl
      · exact ih b.length (by omega) h rfl
    · rw [components, List.splitOn_eq_singleton hslash, List.mem_filter] at h
      obtain ⟨hmem, hne⟩ := h
      rw [List.mem_singleton.mp hmem] at hne ⊢
      exact ⟨by simpa using hne, hslash⟩

/-- The components of a path that is empty or goes on with a slash, after another. -/
theorem components_append (p : Path) (h : w = [] ∨ ∃ v, w = '/' :: v) :
    components (p ++ w) = components p ++ components w := by
  rcases h with rfl | ⟨v, rfl⟩
  · rw [components_nil, List.append_nil, List.append_nil]
  · rw [components_append_slash, components_slash]

theorem components_pathcat (a b : Path) :
    components (pathcat a b) = components a ++ components b := by
  have htail : components (if b.head? = some '/' then b.tail else b) = components b := by
    split
    · rename_i hb
      obtain ⟨v, rfl⟩ := List.head?_eq_some_iff.mp hb
      rw [List.tail_cons, components_slash]
    · rfl
  rw [pathcat]
  split
  · rename_i ha
    obtain ⟨v, rfl⟩ := List.getLast?_eq_some_iff.mp ha
    rw [List.append_assoc, List.singleton_append, components_append_slash, htail,
      components_append_last]
  · rw [components_append_slash, htail]

/-! ## The last component -/

/-- A path ends with a part without slashes, before which it is empty or has a slash. -/
theorem exists_last (p : Path) :
    ∃ y l, p = y ++ l ∧ '/' ∉ l ∧ (y = [] ∨ ∃ z, y = z ++ ['/']) := by
  induction p using List.reverseRecOn with
  | nil => exact ⟨[], [], rfl, List.not_mem_nil, Or.inl rfl⟩
  | append_singleton p c ih =>
    by_cases hc : c = '/'
    · refine ⟨p ++ [c], [], ?_, List.not_mem_nil, Or.inr ⟨p, by rw [hc]⟩⟩
      rw [List.append_nil]
    · obtain ⟨y, l, rfl, hl, hy⟩ := ih
      refine ⟨y, l ++ [c], by rw [List.append_assoc], ?_, hy⟩
      rw [List.mem_append, List.mem_singleton]
      rintro (h | h)
      · exact hl h
      · exact hc h.symm

/-- A path that does not begin with a slash begins with a name. -/
theorem exists_first (h : p ≠ []) (hs : p.head? ≠ some '/') :
    ∃ n w, p = n ++ w ∧ IsName n ∧ (w = [] ∨ ∃ v, w = '/' :: v) := by
  induction p with
  | nil => exact absurd rfl h
  | cons c p ih =>
    have hc : c ≠ '/' := fun hc => hs (by rw [hc]; rfl)
    by_cases hp : p = [] ∨ p.head? = some '/'
    · refine ⟨[c], p, rfl, ⟨List.cons_ne_nil _ _, ?_⟩, ?_⟩
      · rw [List.mem_singleton]
        exact fun hc' => hc hc'.symm
      · rcases hp with rfl | hp
        · exact Or.inl rfl
        · obtain ⟨v, rfl⟩ := List.head?_eq_some_iff.mp hp
          exact Or.inr ⟨v, rfl⟩
    · rw [not_or] at hp
      obtain ⟨n, w, rfl, ⟨hn, hslash⟩, hw⟩ := ih hp.1 hp.2
      refine ⟨c :: n, w, rfl, ⟨List.cons_ne_nil _ _, ?_⟩, hw⟩
      rw [List.mem_cons]
      rintro (h | h)
      · exact hc h.symm
      · exact hslash h

/-- The last part of a path that does not end with a slash is a name. -/
theorem isName_last {y l : Path} (h : y ++ l ≠ [] ∧ (y ++ l).getLast? ≠ some '/')
    (hy : y = [] ∨ ∃ z, y = z ++ ['/']) (hl : '/' ∉ l) : IsName l := by
  refine ⟨?_, hl⟩
  rintro rfl
  rw [List.append_nil] at h
  rcases hy with rfl | ⟨z, rfl⟩
  · exact h.1 rfl
  · exact h.2 (by rw [List.getLast?_append]; rfl)

/-- The components of a path whose last one is `l`. -/
theorem components_last {y l : Path} (hy : y = [] ∨ ∃ z, y = z ++ ['/']) (hl : IsName l) :
    components (y ++ l) = components y ++ [l] := by
  rcases hy with rfl | ⟨z, rfl⟩
  · rw [List.nil_append, components_name hl, components_nil, List.nil_append]
  · rw [List.append_assoc, List.singleton_append, components_append_slash, components_name hl,
      components_append_last]

/-- What comes right after the last component becomes a part of it. -/
theorem components_extend {y l : Path} (hy : y = [] ∨ ∃ z, y = z ++ ['/']) (hl : '/' ∉ l)
    (hn : IsName n) (hw : w = [] ∨ ∃ v, w = '/' :: v) :
    components (y ++ l ++ (n ++ w)) = components y ++ [l ++ n] ++ components w := by
  have hln : IsName (l ++ n) := by
    refine ⟨List.append_ne_nil_of_right_ne_nil _ hn.1, ?_⟩
    rw [List.mem_append]
    rintro (h | h)
    · exact hl h
    · exact hn.2 h
  rw [← List.append_assoc, components_append _ hw, List.append_assoc, components_last hy hln]

/-- When `p` ends with a name and `q` does or is the root, going on in the same way changes
nothing about whether `q` is `x` followed by `p`. -/
theorem components_extend_iff (x : List Path) (hp : p ≠ [] ∧ p.getLast? ≠ some '/')
    (hq : q = ['/'] ∨ q ≠ [] ∧ q.getLast? ≠ some '/') (t : Path) :
    components (q ++ t) = x ++ components (p ++ t) ↔ components q = x ++ components p := by
  by_cases ht : t = [] ∨ t.head? = some '/'
  · have ht' : t = [] ∨ ∃ v, t = '/' :: v := by
      rcases ht with rfl | ht
      · exact Or.inl rfl
      · exact Or.inr (List.head?_eq_some_iff.mp ht)
    rw [components_append q ht', components_append p ht', ← List.append_assoc,
      List.append_left_inj]
  · rw [not_or] at ht
    obtain ⟨n, w, rfl, hn, hw⟩ := exists_first ht.1 ht.2
    obtain ⟨y, l, rfl, hl, hy⟩ := exists_last p
    have hlname := isName_last hp hy hl
    rw [components_extend hy hl hn hw, components_last hy hlname,
      ← List.append_assoc x (components y ++ _), ← List.append_assoc x (components y),
      ← List.append_assoc x (components y)]
    rcases hq with rfl | hq
    · -- the root has no component that could be extended
      have hroot : components (['/'] ++ (n ++ w)) = [n] ++ components w := by
        rw [List.singleton_append, components_slash, components_append _ hw, components_name hn]
      rw [hroot, List.append_left_inj]
      constructor
      · intro h
        have h : [] ++ [n] = (x ++ components y) ++ [l ++ n] := h
        have h := (List.append_inj' h rfl).2
        rw [List.cons.injEq] at h
        have hlen := congrArg List.length h.1
        rw [List.length_append] at hlen
        exact absurd (List.length_eq_zero_iff.mp (by omega)) hlname.1
      · intro h
        have hlen := congrArg List.length h
        simp at hlen
    · obtain ⟨y', l', rfl, hl', hy'⟩ := exists_last q
      have hlname' := isName_last hq hy' hl'
      rw [components_extend hy' hl' hn hw, components_last hy' hlname', List.append_left_inj]
      constructor
      · intro h
        obtain ⟨h₁, h₂⟩ := List.append_inj' h rfl
        rw [List.cons.injEq, List.append_left_inj] at h₂
        rw [h₁, h₂.1]
      · intro h
        obtain ⟨h₁, h₂⟩ := List.append_inj' h rfl
        rw [List.cons.injEq] at h₂
        rw [h₁, h₂.1]

/-! ## Real paths -/

@[simp] theorem slashed_cons (n : Path) (names : List Path) :
    slashed (n :: names) = '/' :: (n ++ slashed names) := rfl

theorem slashed_append (names names' : List Path) :
    slashed (names ++ names') = slashed names ++ slashed names' :=
  List.flatMap_append

theorem components_slashed (h : ∀ n ∈ names, IsName n) : components (slashed names) = names := by
  induction names with
  | nil => exact components_nil
  | cons n names ih =>
    have hrest : slashed names = [] ∨ ∃ v, slashed names = '/' :: v := by
      cases names with
      | nil => exact Or.inl rfl
      | cons m names => exact Or.inr ⟨_, slashed_cons m names⟩
    rw [slashed_cons, components_slash, components_append _ hrest,
      components_name (h n List.mem_cons_self), ih fun m hm => h m (List.mem_cons_of_mem n hm)]
    rfl

theorem IsRealPath.head (h : IsRealPath p) : ∃ v, p = '/' :: v := by
  rcases h with rfl | ⟨names, hne, -, rfl⟩
  · exact ⟨[], rfl⟩
  · cases names with
    | nil => exact absurd rfl hne
    | cons n names => exact ⟨_, slashed_cons n names⟩

theorem slashed_getLast (hne : names ≠ []) (h : ∀ n ∈ names, IsName n) :
    (slashed names).getLast? ≠ some '/' := by
  induction names using List.reverseRecOn with
  | nil => exact absurd rfl hne
  | append_singleton names n ih =>
    obtain ⟨hn, hslash⟩ := h n (List.mem_append_right names List.mem_cons_self)
    rw [slashed_append]
    have hlast : (slashed [n]).getLast? = n.getLast? := by
      rw [slashed_cons]
      obtain ⟨c, n, rfl⟩ := List.exists_cons_of_ne_nil hn
      simp [slashed, List.getLast?_cons]
    intro hc
    rw [List.getLast?_append, hlast] at hc
    have hget := List.getLast?_eq_some_getLast hn
    rw [hget, Option.some_or, Option.some.injEq] at hc
    exact hslash (hc ▸ List.getLast_mem hn)

/-- A real path is the root or ends with a name. -/
theorem IsRealPath.last (h : IsRealPath p) : p = ['/'] ∨ p ≠ [] ∧ p.getLast? ≠ some '/' := by
  rcases h with rfl | ⟨names, hne, hnames, rfl⟩
  · exact Or.inl rfl
  · refine Or.inr ⟨?_, slashed_getLast hne hnames⟩
    obtain ⟨v, hv⟩ := IsRealPath.head (Or.inr ⟨names, hne, hnames, rfl⟩)
    rw [hv]
    exact List.cons_ne_nil _ _

theorem IsRealPath.components_eq_nil (h : IsRealPath p) : components p = [] ↔ p = ['/'] := by
  constructor
  · intro hp
    rcases h with rfl | ⟨names, hne, hnames, rfl⟩
    · rfl
    · rw [components_slashed hnames] at hp
      exact absurd hp hne
  · rintro rfl
    rw [components_slash, components_nil]

end TokuBackup.Kernel
