import TokuBackup.Kernel.Content
import TokuBackup.RangeLocks

/-!
# Mirroring a file that is being copied

What the capture of data calls and the copy of a file do together, without threads, locks
and descriptors. Parties change the source one effect at a time and repeat the effect on
the copy later; between the two the effect is *pending*. A copier moves a frontier through
the file: it reads a chunk of the source at the frontier and writes it to the copy.

`Mirrored` relates the source, the copy, the pending effects and the frontier. Effects may
reach the copy in another order than the source and before or behind the frontier, so the
relation speaks of the bytes below the frontier that no pending effect covers, and of the
two lengths once no truncate is pending. Each rule (`real`, `apply`, `skip`, `chunk`,
`finish`) says what keeps it; the rules ask that effects pending at the same time are
compatible, which is what exclusive range locks provide.
-/

namespace TokuBackup.Convergence

open Kernel

/-- What a data call does to a file, at the offset it locked. -/
inductive Effect where
  | write (offset : Nat) (buf : List UInt8)
  | truncate (length : Nat)

namespace Effect

/-- The range the call locks: a truncate locks up to `LLONG_MAX`. -/
def range : Effect → Range
  | .write offset buf => ⟨offset, offset + buf.length⟩
  | .truncate length => ⟨length, llongMax⟩

def apply : Effect → Content → Content
  | .write offset buf, c => c.write offset buf
  | .truncate length, c => c.truncate length

/-- The kernel accepts the call: it ends at or below the largest offset. -/
def fits : Effect → Bool
  | .write offset buf => offset + buf.length ≤ llongMax
  | .truncate length => length ≤ llongMax

/-- The positions whose byte the effect decides. -/
def Covers : Effect → Nat → Prop
  | .write offset buf, i => offset ≤ i ∧ i < offset + buf.length
  | .truncate length, i => length ≤ i

/-- Two effects that give the same file in either order. -/
def Compatible : Effect → Effect → Prop
  | .write o b, .write o' b' => ∀ i, o ≤ i → i < o + b.length → o' ≤ i → i < o' + b'.length → False
  | .write o b, .truncate l => b ≠ [] → o + b.length ≤ l
  | .truncate l, .write o b => b ≠ [] → o + b.length ≤ l
  | .truncate l, .truncate l' => l = l'

theorem apply_byte_of_not_covers {e : Effect} {i : Nat} (h : ¬ e.Covers i) (c : Content) :
    (e.apply c).byte i = c.byte i := by
  cases e with
  | write o b => exact Content.write_byte_out h
  | truncate l => exact Content.truncate_byte_lt (Nat.lt_of_not_le h)

/-- Effects that fit and hold disjoint ranges are compatible, except for two truncates of
which one locks the empty range at `LLONG_MAX`. -/
theorem compatible_of_disjoint {e e' : Effect} (he : e.fits = true) (he' : e'.fits = true)
    (hd : e.range.Disjoint e'.range)
    (ht : ∀ l l', e = .truncate l → e' = .truncate l' → llongMax ≤ l ∨ llongMax ≤ l' → l = l') :
    e.Compatible e' := by
  rw [Range.disjoint_iff] at hd
  cases e with
  | write o b =>
    simp only [fits, decide_eq_true_eq] at he
    cases e' with
    | write o' b' => exact hd
    | truncate l =>
      intro hb
      have hpos := List.length_pos_iff.mpr hb
      by_contra hlt
      exact hd (max o l) (by simp [range]) (by simp only [range]; omega) (by simp [range])
        (by simp only [range]; omega)
  | truncate l =>
    simp only [fits, decide_eq_true_eq] at he
    cases e' with
    | write o b =>
      simp only [fits, decide_eq_true_eq] at he'
      intro hb
      have hpos := List.length_pos_iff.mpr hb
      by_contra hlt
      exact hd (max o l) (by simp [range]) (by simp only [range]; omega) (by simp [range])
        (by simp only [range]; omega)
    | truncate l' =>
      by_contra hne
      have h := ht l l' rfl rfl
      have hl : ¬ (llongMax ≤ l ∨ llongMax ≤ l') := fun hor => hne (h hor)
      exact hd (max l l') (by simp [range]) (by simp only [range]; omega) (by simp [range])
        (by simp only [range]; omega)

end Effect

variable {ι : Type}

/-- The copy `dst` follows the source `src`: the pending effects of the parties have
reached the source, the bytes below `copied` are copied, and all of them are when the
copier has `finished`. -/
structure Mirrored (src dst : Content) (pending : ι → Option Effect) (copied : Nat)
    (finished : Prop) : Prop where
  write_len : ∀ t o b, pending t = some (.write o b) → b ≠ [] → o + b.length ≤ src.len
  write_byte : ∀ t o b i, pending t = some (.write o b) → o ≤ i → i < o + b.length →
    src.byte i = b.getD (i - o) 0
  truncate_len : ∀ t l, pending t = some (.truncate l) → src.len = l
  bytes : ∀ i, i < copied ∨ finished → (∀ t e, pending t = some e → ¬ e.Covers i) →
    dst.byte i = src.byte i
  dst_len : (∀ t l, pending t ≠ some (.truncate l)) → dst.len ≤ src.len
  src_len : (∀ t l, pending t ≠ some (.truncate l)) → ∀ n, n ≤ src.len → n ≤ copied ∨ finished →
    n ≤ dst.len ∨ ∃ t o b, pending t = some (.write o b) ∧ b ≠ [] ∧ n ≤ o + b.length

namespace Mirrored

variable {src dst : Content} {pending : ι → Option Effect} {copied : Nat} {finished : Prop}

/-- Nothing has been mirrored or copied yet. -/
theorem initial (src : Content) (hp : ∀ t, pending t = none) (hf : ¬ finished) :
    Mirrored src Content.empty pending 0 finished where
  write_len t o b h := by simp [hp] at h
  write_byte t o b i h := by simp [hp] at h
  truncate_len t l h := by simp [hp] at h
  bytes i hi := by
    rcases hi with hi | hi
    · omega
    · exact absurd hi hf
  dst_len _ := Nat.zero_le _
  src_len _ n _ hn := by
    rcases hn with hn | hn
    · exact Or.inl (by simpa using hn)
    · exact absurd hn hf

theorem congr (h : Mirrored src dst pending copied finished) {pending' : ι → Option Effect}
    {finished' : Prop} (hp : ∀ t, pending' t = pending t) (hf : finished' ↔ finished) :
    Mirrored src dst pending' copied finished' := by
  rw [funext hp, propext hf]
  exact h

section

variable [DecidableEq ι] {t : ι} {e : Effect}

theorem update_some {x : Option Effect} {t' : ι} {e' : Effect}
    (h : Function.update pending t x t' = some e') :
    (t' = t ∧ x = some e') ∨ (t' ≠ t ∧ pending t' = some e') := by
  by_cases ht : t' = t
  · subst ht
    rw [Function.update_self] at h
    exact Or.inl ⟨rfl, h⟩
  · rw [Function.update_of_ne ht] at h
    exact Or.inr ⟨ht, h⟩

theorem of_update_none {t' : ι} {e' : Effect}
    (h : Function.update pending t none t' = some e') : pending t' = some e' := by
  rcases update_some h with ⟨-, he⟩ | ⟨-, hold⟩
  · cases he
  · exact hold

/-- The effect reaches the source. Everything that is pending beside it is compatible. -/
theorem real (h : Mirrored src dst pending copied finished) (hp : pending t = none)
    (hc : ∀ t' e', t' ≠ t → pending t' = some e' → e.Compatible e') :
    Mirrored (e.apply src) dst (Function.update pending t (some e)) copied finished where
  write_len t' o b ht' hb := by
    rcases update_some ht' with ⟨-, he⟩ | ⟨hne, hold⟩
    · cases he
      simp only [Effect.apply, Content.write_len_of_ne hb]
      omega
    · have hlen := h.write_len t' o b hold hb
      have hcomp := hc t' _ hne hold
      cases e with
      | write o' b' => exact hlen.trans (Content.len_le_write _ _ _)
      | truncate l => exact hcomp hb
  write_byte t' o b i ht' h1 h2 := by
    rcases update_some ht' with ⟨-, he⟩ | ⟨hne, hold⟩
    · cases he
      exact Content.write_byte_in ⟨h1, h2⟩
    · have hbyte := h.write_byte t' o b i hold h1 h2
      have hcomp := hc t' _ hne hold
      rw [← hbyte]
      apply Effect.apply_byte_of_not_covers
      cases e with
      | write o' b' => exact fun hcov => hcomp i hcov.1 hcov.2 h1 h2
      | truncate l =>
        have hb : b ≠ [] := by
          rintro rfl
          simp only [List.length_nil] at h2
          omega
        have := hcomp hb
        simp only [Effect.Covers]
        omega
  truncate_len t' l ht' := by
    rcases update_some ht' with ⟨-, he⟩ | ⟨hne, hold⟩
    · cases he
      rfl
    · have hlen := h.truncate_len t' l hold
      have hcomp := hc t' _ hne hold
      cases e with
      | write o b =>
        apply Nat.le_antisymm
        · exact Content.write_len_le (le_of_eq hlen) hcomp
        · exact hlen.symm.le.trans (Content.len_le_write _ _ _)
      | truncate l' => exact hcomp
  bytes i hi hcov := by
    have hnot : ¬ e.Covers i := hcov t e (Function.update_self ..)
    rw [Effect.apply_byte_of_not_covers hnot]
    refine h.bytes i hi fun t' e' ht' => ?_
    have hne : t' ≠ t := by
      rintro rfl
      simp [hp] at ht'
    exact hcov t' e' (by rw [Function.update_of_ne hne]; exact ht')
  dst_len hno := by
    cases e with
    | truncate l => exact absurd (Function.update_self ..) (hno t l)
    | write o b =>
      refine (h.dst_len fun t' l ht' => ?_).trans (Content.len_le_write _ _ _)
      have hne : t' ≠ t := by
        rintro rfl
        simp [hp] at ht'
      exact hno t' l (by rw [Function.update_of_ne hne]; exact ht')
  src_len hno n hn hcop := by
    cases e with
    | truncate l => exact absurd (Function.update_self ..) (hno t l)
    | write o b =>
      have hother : ∀ t', t' ≠ t → Function.update pending t (some (.write o b)) t' = pending t' :=
        fun t' hne => Function.update_of_ne hne _ _
      have hold : ∀ t' l, pending t' ≠ some (.truncate l) := by
        intro t' l ht'
        have hne : t' ≠ t := by
          rintro rfl
          simp [hp] at ht'
        exact hno t' l ((hother t' hne).trans ht')
      by_cases hb : b = []
      · -- an empty write leaves the source as it is
        subst hb
        simp only [Effect.apply, Content.write, if_true] at hn
        rcases h.src_len hold n hn hcop with hd | ⟨t', o', b', ht', hb', hn'⟩
        · exact Or.inl hd
        · have hne : t' ≠ t := by
            rintro rfl
            simp [hp] at ht'
          exact Or.inr ⟨t', o', b', (hother t' hne).trans ht', hb', hn'⟩
      · by_cases hle : n ≤ o + b.length
        · exact Or.inr ⟨t, o, b, Function.update_self .., hb, hle⟩
        · have hn' : n ≤ src.len := by
            simp only [Effect.apply, Content.write_len_of_ne hb] at hn
            omega
          rcases h.src_len hold n hn' hcop with hd | ⟨t', o', b', ht', hb', hn''⟩
          · exact Or.inl hd
          · have hne : t' ≠ t := by
              rintro rfl
              simp [hp] at ht'
            exact Or.inr ⟨t', o', b', (hother t' hne).trans ht', hb', hn''⟩

/-- The pending effect reaches the copy. -/
theorem apply (h : Mirrored src dst pending copied finished) (hp : pending t = some e)
    (hc : ∀ t' e', t' ≠ t → pending t' = some e' → e.Compatible e') :
    Mirrored src (e.apply dst) (Function.update pending t none) copied finished where
  write_len t' o b ht' := by
    exact h.write_len t' o b (of_update_none ht')
  write_byte t' o b i ht' := by
    exact h.write_byte t' o b i (of_update_none ht')
  truncate_len t' l ht' := by
    exact h.truncate_len t' l (of_update_none ht')
  bytes i hi hcov := by
    by_cases hei : e.Covers i
    · -- the byte was decided by this effect in the source already
      cases e with
      | write o b =>
        simp only [Effect.apply]
        rw [Content.write_byte_in hei, h.write_byte t o b i hp hei.1 hei.2]
      | truncate l =>
        have hlen := h.truncate_len t l hp
        simp only [Effect.apply]
        rw [Content.truncate_byte_ge hei, src.tail i (hlen.le.trans hei)]
    · rw [Effect.apply_byte_of_not_covers hei]
      refine h.bytes i hi fun t' e' ht' => ?_
      by_cases hne : t' = t
      · subst hne
        cases hp.symm.trans ht'
        exact hei
      · exact hcov t' e' (by rw [Function.update_of_ne hne]; exact ht')
  dst_len hno := by
    cases e with
    | write o b =>
      refine Content.write_len_le (h.dst_len fun t' l ht' => ?_) (h.write_len t o b hp)
      have hne : t' ≠ t := by
        rintro rfl
        cases hp.symm.trans ht'
      exact hno t' l (by rw [Function.update_of_ne hne]; exact ht')
    | truncate l => exact (h.truncate_len t l hp).symm.le
  src_len hno n hn hcop := by
    cases e with
    | truncate l =>
      have hlen := h.truncate_len t l hp
      exact Or.inl (by simp only [Effect.apply, Content.truncate_len]; omega)
    | write o b =>
      have hold : ∀ t' l, pending t' ≠ some (.truncate l) := by
        intro t' l ht'
        have hne : t' ≠ t := by
          rintro rfl
          cases hp.symm.trans ht'
        exact hno t' l (by rw [Function.update_of_ne hne]; exact ht')
      rcases h.src_len hold n hn hcop with hd | ⟨t', o', b', ht', hb', hn'⟩
      · exact Or.inl (hd.trans (Content.len_le_write _ _ _))
      · by_cases hne : t' = t
        · subst hne
          cases hp.symm.trans ht'
          left
          simp only [Effect.apply, Content.write_len_of_ne hb']
          omega
        · exact Or.inr ⟨t', o', b', by rw [Function.update_of_ne hne]; exact ht', hb', hn'⟩

/-- An effect whose party found no copy is not mirrored; then nothing was copied yet and
the copy is empty. -/
theorem skip (h : Mirrored src Content.empty pending 0 finished) (hf : ¬ finished) :
    Mirrored src Content.empty (Function.update pending t none) 0 finished where
  write_len t' o b ht' := by
    exact h.write_len t' o b (of_update_none ht')
  write_byte t' o b i ht' := by
    exact h.write_byte t' o b i (of_update_none ht')
  truncate_len t' l ht' := by
    exact h.truncate_len t' l (of_update_none ht')
  bytes i hi := by
    rcases hi with hi | hi
    · omega
    · exact absurd hi hf
  dst_len _ := Nat.zero_le _
  src_len _ n _ hn := by
    rcases hn with hn | hn
    · exact Or.inl (by simpa using hn)
    · exact absurd hn hf

end

/-- The copier writes a chunk that still is what the source holds at the frontier. -/
theorem chunk (h : Mirrored src dst pending copied finished) {buf : List UInt8} (hne : buf ≠ [])
    (hlen : copied + buf.length ≤ src.len)
    (hbyte : ∀ i, i < buf.length → src.byte (copied + i) = buf.getD i 0) :
    Mirrored src (dst.write copied buf) pending (copied + buf.length) finished where
  write_len := h.write_len
  write_byte := h.write_byte
  truncate_len := h.truncate_len
  bytes i hi hcov := by
    by_cases hin : copied ≤ i ∧ i < copied + buf.length
    · rw [Content.write_byte_in hin, ← hbyte (i - copied) (by omega)]
      congr 1
      omega
    · rw [Content.write_byte_out hin]
      refine h.bytes i ?_ hcov
      rcases hi with hi | hi
      · exact Or.inl (by omega)
      · exact Or.inr hi
  dst_len hno := Content.write_len_le (h.dst_len hno) fun _ => hlen
  src_len hno n hn hcop := by
    by_cases hle : n ≤ copied + buf.length
    · left
      rw [Content.write_len_of_ne hne]
      omega
    · have hf : finished := by
        rcases hcop with hcop | hf
        · omega
        · exact hf
      rcases h.src_len hno n hn (Or.inr hf) with hd | hw
      · exact Or.inl (hd.trans (Content.len_le_write _ _ _))
      · exact Or.inr hw

/-- The copier reads at or past the end of the source. -/
theorem finish (h : Mirrored src dst pending copied finished) (heof : src.len ≤ copied) :
    Mirrored src dst pending copied True where
  write_len := h.write_len
  write_byte := h.write_byte
  truncate_len := h.truncate_len
  bytes i _ hcov := by
    by_cases hi : i < copied
    · exact h.bytes i (Or.inl hi) hcov
    · have hno : ∀ t l, pending t ≠ some (.truncate l) := by
        intro t l ht
        have hlen := h.truncate_len t l ht
        exact hcov t _ ht (show l ≤ i by omega)
      have hd := h.dst_len hno
      rw [dst.tail i (by omega), src.tail i (by omega)]
  dst_len := h.dst_len
  src_len hno n hn _ := h.src_len hno n hn (Or.inl (hn.trans heof))

/-- Once the copier has finished and nothing is pending, the copy is the source. -/
theorem converged (h : Mirrored src dst pending copied finished) (hp : ∀ t, pending t = none)
    (hf : finished) : dst = src := by
  have hno : ∀ t l, pending t ≠ some (.truncate l) := by
    intro t l ht
    simp [hp] at ht
  have hle : src.len ≤ dst.len := by
    rcases h.src_len hno src.len (le_refl _) (Or.inr hf) with hd | ⟨t, o, b, ht, -⟩
    · exact hd
    · simp [hp] at ht
  have hbytes : ∀ i, dst.byte i = src.byte i := by
    intro i
    refine h.bytes i (Or.inr hf) fun t e ht => ?_
    simp [hp] at ht
  exact Content.ext' ((h.dst_len hno).antisymm hle) hbytes

end Mirrored

end TokuBackup.Convergence
