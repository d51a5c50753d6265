import Mathlib.Data.BitVec
import Mathlib.Data.FinEnum
import Mathlib.Data.Int.CardIntervalMod
import Mathlib.Data.Nat.Count
import Mathlib.SetTheory.Cardinal.Finite

/-!
# Mixing without loss

The operations a hash function mixes words with: a rotation, a product with an odd number and
a shift to the right that is added without carry. Each of them has an inverse, so it loses
nothing of the word.
-/

namespace TokuBackup.Lib

variable {w : Nat}

/-- Rotate to the left, the way C programs write it. -/
def rotateBy (x : BitVec w) (r : Nat) : BitVec w := (x <<< r) ||| (x >>> (w - r))

theorem getLsbD_rotateBy (x : BitVec w) {r i : Nat} (hr : r ≤ w) (hi : i < w) :
    (rotateBy x r).getLsbD ((i + r) % w) = x.getLsbD i := by
  rw [rotateBy, BitVec.getLsbD_or, BitVec.getLsbD_shiftLeft, BitVec.getLsbD_ushiftRight]
  by_cases hlow : i + r < w
  · have hbeyond : x.getLsbD (w - r + (i + r)) = false := BitVec.getLsbD_of_ge _ _ (by omega)
    rw [Nat.mod_eq_of_lt hlow, hbeyond]
    simp [hlow]
  · have hwrap : (i + r) % w = i + r - w := by
      rw [Nat.mod_eq_sub_mod (by omega), Nat.mod_eq_of_lt (by omega)]
    have hsame : w - r + (i + r - w) = i := by omega
    have hsmall : i + r - w < r := by omega
    rw [hwrap, hsame]
    simp [hsmall]

theorem rotateBy_injective {r : Nat} (hr : r ≤ w) :
    Function.Injective fun x : BitVec w => rotateBy x r := by
  intro x y h
  apply BitVec.eq_of_getLsbD_eq
  intro i hi
  rw [← getLsbD_rotateBy x hr hi, ← getLsbD_rotateBy y hr hi]
  exact congrArg (fun z => BitVec.getLsbD z _) h

/-- An odd number has an inverse modulo a power of two. -/
theorem mul_injective {c d : BitVec w} (h : c * d = 1) :
    Function.Injective fun x : BitVec w => x * c := by
  intro x y hxy
  have hmul : x * c * d = y * c * d := congrArg (· * d) hxy
  rwa [mul_assoc, mul_assoc, h, mul_one, mul_one] at hmul

/-- The upper half of the bits stays, and gives the lower half back. -/
theorem xorShift_injective {s : Nat} (hs : w ≤ s + s) :
    Function.Injective fun x : BitVec w => x ^^^ (x >>> s) := by
  apply Function.LeftInverse.injective (g := fun x : BitVec w => x ^^^ (x >>> s))
  intro x
  have hout : x >>> s >>> s = 0#w := by
    rw [← BitVec.shiftRight_add]
    exact BitVec.ushiftRight_eq_zero hs
  change x ^^^ x >>> s ^^^ (x ^^^ x >>> s) >>> s = x
  rw [BitVec.ushiftRight_xor_distrib, hout, BitVec.xor_zero, BitVec.xor_assoc, BitVec.xor_self,
    BitVec.xor_zero]

/-! ## Bytes -/

/-- The number that the bytes are, the lowest byte first. -/
def littleEndian : List (BitVec 8) → BitVec w
  | [] => 0
  | b :: bs => b.setWidth w ^^^ (littleEndian bs <<< 8)

theorem getLsbD_littleEndian {bs : List (BitVec 8)} {i j : Nat} (hi : i < bs.length) (hj : j < 8)
    (hw : 8 * bs.length ≤ w) :
    (littleEndian bs : BitVec w).getLsbD (8 * i + j) = bs[i].getLsbD j := by
  induction bs generalizing i with
  | nil => cases hi
  | cons b bs ih =>
    rw [List.length_cons] at hi hw
    rw [littleEndian, BitVec.getLsbD_xor, BitVec.getLsbD_setWidth, BitVec.getLsbD_shiftLeft]
    cases i with
    | zero =>
      have hlt : j < w := by omega
      simp [hlt, hj]
    | succ i =>
      have hrest := ih (i := i) (by omega) (by omega)
      have hbeyond : b.getLsbD (8 * (i + 1) + j) = false := BitVec.getLsbD_of_ge _ _ (by omega)
      have hlt : 8 * (i + 1) + j < w := by omega
      have hprev : 8 * (i + 1) + j - 8 = 8 * i + j := by omega
      rw [hbeyond, hprev, hrest]
      simp [hlt, show ¬ 8 * (i + 1) + j < 8 by omega]

/-- As many bytes as fit are all in the number. -/
theorem littleEndian_injective {bs bs' : List (BitVec 8)} (hlength : bs.length = bs'.length)
    (hw : 8 * bs.length ≤ w) (h : (littleEndian bs : BitVec w) = littleEndian bs') : bs = bs' := by
  apply List.ext_getElem hlength
  intro i hi hi'
  apply BitVec.eq_of_getLsbD_eq
  intro j hj
  rw [← getLsbD_littleEndian hi hj hw, ← getLsbD_littleEndian hi' hj (hlength ▸ hw), h]

/-! ## Shares -/

theorem card_bitVec : Nat.card (BitVec w) = 2 ^ w := by
  rw [Nat.card_eq_fintype_card, ← FinEnum.card_eq_fintypeCard, FinEnum.card_bitVec]

theorem card_residue {m i : Nat} (hi : i < m) :
    Nat.card {v : BitVec w // v.toNat % m = i} = 2 ^ w / m + if i < 2 ^ w % m then 1 else 0 := by
  have hcount := Nat.count_modEq_card (2 ^ w) (Nat.zero_lt_of_lt hi) i
  rw [Nat.mod_eq_of_lt hi, Nat.count_eq_card_filter_range] at hcount
  rw [← hcount, ← Nat.subtype_card (p := fun k => k < 2 ^ w ∧ k % m = i) _ (by
    simp [Nat.ModEq, Nat.mod_eq_of_lt hi])]
  apply Nat.card_eq_of_bijective (Subtype.map BitVec.toNat fun v hv => ⟨v.isLt, hv⟩)
  constructor
  · exact Subtype.map_injective _ fun _ _ heq => BitVec.eq_of_toNat_eq heq
  · intro k
    have hk : (BitVec.ofNat w k.1).toNat = k.1 := by
      rw [BitVec.toNat_ofNat, Nat.mod_eq_of_lt k.2.1]
    exact ⟨⟨BitVec.ofNat w k.1, by rw [hk]; exact k.2.2⟩, Subtype.ext hk⟩

/-- The sums of two words are spread over the residue classes as evenly as can be. -/
theorem card_sum_residue {m i : Nat} (hi : i < m) :
    Nat.card {h : BitVec w × BitVec w // (h.1 + h.2).toNat % m = i} =
      2 ^ w * (2 ^ w / m + if i < 2 ^ w % m then 1 else 0) := by
  rw [← card_residue (w := w) hi, ← card_bitVec (w := w), ← Nat.card_prod]
  apply Nat.card_eq_of_bijective
    (fun h => (h.1.1, ⟨h.1.1 + h.1.2, h.2⟩) :
      {h : BitVec w × BitVec w // (h.1 + h.2).toNat % m = i} →
      BitVec w × {v : BitVec w // v.toNat % m = i})
  constructor
  · intro h h' heq
    rw [Prod.mk.injEq, Subtype.mk.injEq] at heq
    obtain ⟨h1, hsum⟩ := heq
    rw [h1] at hsum
    exact Subtype.ext (Prod.ext h1 (add_left_cancel hsum))
  · intro v
    refine ⟨⟨(v.1, v.2.1 - v.1), ?_⟩, ?_⟩
    · dsimp only
      rw [add_sub_cancel]
      exact v.2.2
    · exact Prod.ext rfl (Subtype.ext (add_sub_cancel _ _))

end TokuBackup.Lib
