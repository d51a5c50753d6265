import TokuBackup.Lib.Mix
import Mathlib.Data.Fintype.BigOperators
import Mathlib.Data.Int.CardIntervalMod

/-!
# The hash of the file table

`MurmurHash3_x64_128`, and what `file_hash_table::hash` makes of it. A key is a list of bytes,
short enough for an `int`; the words are read from memory with the lowest byte first.

Nothing of a key is lost on the way from its last block to the hash. So of all the blocks that
can stand at one place of a key exactly one leads to a given hash, and the buckets of the table
get the same share of them.
-/

namespace TokuBackup.Table

open Lib

abbrev Byte := BitVec 8

/-- `h1` and `h2`, or `k1` and `k2`. -/
abbrev Halves := BitVec 64 × BitVec 64

def rotl64 (x : BitVec 64) (r : Nat) : BitVec 64 := rotateBy x r

/-- Force all bits of a hash block to avalanche. -/
def fmix (k : BitVec 64) : BitVec 64 :=
  let k := k ^^^ (k >>> 33)
  let k := k * 0xff51afd7ed558ccd#64
  let k := k ^^^ (k >>> 33)
  let k := k * 0xc4ceb9fe1a85ec53#64
  k ^^^ (k >>> 33)

def c1 : BitVec 64 := 0x87c37b91114253d5#64

def c2 : BitVec 64 := 0x4cf5ad432745937f#64

/-- `k1 *= c1; k1 = ROTL64(k1,31); k1 *= c2`. -/
def mixK1 (k1 : BitVec 64) : BitVec 64 := rotl64 (k1 * c1) 31 * c2

/-- `k2 *= c2; k2 = ROTL64(k2,33); k2 *= c1`. -/
def mixK2 (k2 : BitVec 64) : BitVec 64 := rotl64 (k2 * c2) 33 * c1

/-- One half of the hash takes up a word: `other` is the other half. -/
def takeUp (h k other : BitVec 64) (r : Nat) (constant : BitVec 64) : BitVec 64 :=
  (rotl64 (h ^^^ k) r + other) * 5#64 + constant

/-- The body of the loop. -/
def mixBlock (h k : Halves) : Halves :=
  let h1 := takeUp h.1 (mixK1 k.1) h.2 27 0x52dce729#64
  let h2 := takeUp h.2 (mixK2 k.2) h1 31 0x38495ab5#64
  (h1, h2)

/-- The two words at the front of `data`. -/
def getblock (data : List Byte) : Halves :=
  (littleEndian (data.take 8), littleEndian ((data.drop 8).take 8))

/-- The blocks that the loop reads: `getblock(blocks,i*2+0)` and `getblock(blocks,i*2+1)`. -/
def blocks : Nat → List Byte → List Halves
  | 0, _ => []
  | nblocks + 1, data => getblock data :: blocks nblocks (data.drop 16)

/-- The `switch`: what is left has up to 15 bytes. -/
def mixTail (tail : List Byte) (h : Halves) : Halves :=
  let h2 := if 9 ≤ tail.length then h.2 ^^^ mixK2 (littleEndian (tail.drop 8)) else h.2
  let h1 := if 1 ≤ tail.length then h.1 ^^^ mixK1 (littleEndian (tail.take 8)) else h.1
  (h1, h2)

/-- The body and the tail. -/
def process (data : List Byte) (h : Halves) : Halves :=
  let nblocks := data.length / 16
  mixTail (data.drop (16 * nblocks)) ((blocks nblocks data).foldl mixBlock h)

/-- `h1 += h2; h2 += h1`. -/
def addHalves (h : Halves) : Halves := (h.1 + h.2, h.2 + (h.1 + h.2))

def finalization (len : Nat) (h : Halves) : Halves :=
  let len := BitVec.ofNat 64 len
  let h := addHalves (h.1 ^^^ len, h.2 ^^^ len)
  addHalves (fmix h.1, fmix h.2)

def murmurHash3_x64_128 (key : List Byte) (seed : BitVec 32) : Halves :=
  finalization key.length (process key (seed.setWidth 64, seed.setWidth 64))

example : murmurHash3_x64_128 ("hello".toList.map fun c => BitVec.ofNat 8 c.toNat) 0 =
    (0xcbd8a7b341bd9b02#64, 0x5b1e906a48ae1d19#64) := by decide +kernel

/-- `the_hash[0]+the_hash[1]`. -/
def hashValue (file : List Byte) : Nat :=
  let the_hash := murmurHash3_x64_128 file 0
  (the_hash.1 + the_hash.2).toNat

/-- `file_hash_table::hash` in a table with `m_size` buckets. -/
def bucketOf (m_size : Nat) (file : List Byte) : Nat := hashValue file % m_size

/-! ## Nothing is lost -/

theorem rotl64_injective {r : Nat} (hr : r ≤ 64) :
    Function.Injective fun x => rotl64 x r :=
  rotateBy_injective hr

theorem fmix_injective : Function.Injective fmix := by
  have hshift := xorShift_injective (w := 64) (s := 33) (by decide)
  have hfirst := mul_injective (c := 0xff51afd7ed558ccd#64) (d := 0x4f74430c22a54005#64) (by decide)
  have hsecond :=
    mul_injective (c := 0xc4ceb9fe1a85ec53#64) (d := 0x9cb4b2f8129337db#64) (by decide)
  exact hshift.comp (hsecond.comp (hshift.comp (hfirst.comp hshift)))

theorem mul_c1_injective : Function.Injective fun x => x * c1 :=
  mul_injective (d := 0xa98409e882ce4d7d#64) (by decide)

theorem mul_c2_injective : Function.Injective fun x => x * c2 :=
  mul_injective (d := 0xa81e14edd9de2c7f#64) (by decide)

theorem mixK1_injective : Function.Injective mixK1 :=
  mul_c2_injective.comp ((rotl64_injective (r := 31) (by decide)).comp mul_c1_injective)

theorem mixK2_injective : Function.Injective mixK2 :=
  mul_c1_injective.comp ((rotl64_injective (r := 33) (by decide)).comp mul_c2_injective)

theorem takeUp_inj {h h' k k' other constant : BitVec 64} {r : Nat} (hr : r ≤ 64)
    (heq : takeUp h k other r constant = takeUp h' k' other r constant) : h ^^^ k = h' ^^^ k' := by
  rw [takeUp, takeUp, add_left_inj] at heq
  have hfive := mul_injective (c := 5#64) (d := 0xcccccccccccccccd#64) (by decide) heq
  exact rotl64_injective hr (add_right_cancel hfive)

/-- The hash of a block shows the block. -/
theorem mixBlock_injective (h : Halves) : Function.Injective (mixBlock h) := by
  intro k k' heq
  simp only [mixBlock, Prod.mk.injEq] at heq
  obtain ⟨hfirst, hsecond⟩ := heq
  have hk1 := mixK1_injective ((BitVec.xor_right_inj _).mp (takeUp_inj (by decide) hfirst))
  rw [hfirst] at hsecond
  have hk2 := mixK2_injective ((BitVec.xor_right_inj _).mp (takeUp_inj (by decide) hsecond))
  exact Prod.ext hk1 hk2

/-- A block does not hide what came before it. -/
theorem mixBlock_injective_left (k : Halves) : Function.Injective fun h => mixBlock h k := by
  intro h h' heq
  simp only [mixBlock, Prod.mk.injEq] at heq
  obtain ⟨hfirst, hsecond⟩ := heq
  -- The second half takes up the first half as it is now, which is the same in both.
  rw [hfirst] at hsecond
  have h2 := (BitVec.xor_left_inj _).mp (takeUp_inj (by decide) hsecond)
  rw [h2] at hfirst
  have h1 := (BitVec.xor_left_inj _).mp (takeUp_inj (by decide) hfirst)
  exact Prod.ext h1 h2

theorem foldl_mixBlock_injective (ks : List Halves) :
    Function.Injective fun h => ks.foldl mixBlock h := by
  induction ks with
  | nil => exact fun _ _ heq => heq
  | cons k ks ih =>
    intro h h' heq
    simp only [List.foldl_cons] at heq
    exact mixBlock_injective_left k (ih heq)

theorem mixTail_injective (tail : List Byte) : Function.Injective (mixTail tail) := by
  intro h h' heq
  simp only [mixTail, Prod.mk.injEq] at heq
  obtain ⟨h1, h2⟩ := heq
  refine Prod.ext ?_ ?_
  · split at h1
    · exact (BitVec.xor_left_inj _).mp h1
    · exact h1
  · split at h2
    · exact (BitVec.xor_left_inj _).mp h2
    · exact h2

theorem process_injective (data : List Byte) : Function.Injective (process data) :=
  (mixTail_injective _).comp (foldl_mixBlock_injective _)

theorem addHalves_injective : Function.Injective addHalves := by
  intro h h' heq
  simp only [addHalves, Prod.mk.injEq] at heq
  obtain ⟨hsum, hsecond⟩ := heq
  rw [hsum] at hsecond
  have h2 := add_right_cancel hsecond
  rw [h2] at hsum
  exact Prod.ext (add_right_cancel hsum) h2

theorem finalization_injective (len : Nat) : Function.Injective (finalization len) := by
  intro h h' heq
  obtain ⟨h1, h2⟩ := Prod.mk.inj (addHalves_injective heq)
  have hsum := addHalves_injective (Prod.ext (fmix_injective h1) (fmix_injective h2))
  rw [Prod.mk.injEq] at hsum
  obtain ⟨h1, h2⟩ := hsum
  exact Prod.ext ((BitVec.xor_left_inj _).mp h1) ((BitVec.xor_left_inj _).mp h2)

/-! ## Blocks and tails -/

theorem process_block {block : List Byte} (hblock : block.length = 16) (rest : List Byte)
    (h : Halves) :
    process (block ++ rest) h = process rest (mixBlock h (getblock block)) := by
  have hcount : (block ++ rest).length / 16 = rest.length / 16 + 1 := by
    rw [List.length_append, hblock]
    omega
  have htail : (block ++ rest).drop (16 * (rest.length / 16 + 1)) =
      rest.drop (16 * (rest.length / 16)) := by
    rw [mul_add, mul_one, Nat.add_comm, ← List.drop_drop, List.drop_left' hblock]
  have hnext : (block ++ rest).drop 16 = rest := List.drop_left' hblock
  have hfirst : (block ++ rest).take 8 = block.take 8 :=
    List.take_append_of_le_length (by omega)
  have hsecond : ((block ++ rest).drop 8).take 8 = (block.drop 8).take 8 := by
    rw [List.drop_append_of_le_length (by omega)]
    exact List.take_append_of_le_length (by rw [List.length_drop]; omega)
  have hget : getblock (block ++ rest) = getblock block := by
    rw [getblock, getblock, hfirst, hsecond]
  simp only [process, hcount, htail, blocks, hnext, hget, List.foldl_cons]

/-- Whole blocks lead to a state, whatever follows them. -/
theorem process_blocks {bs : List Byte} (hblocks : 16 ∣ bs.length) (h : Halves) :
    ∃ h', ∀ rest, process (bs ++ rest) h = process rest h' := by
  obtain ⟨n, hn⟩ := hblocks
  induction n generalizing bs h with
  | zero =>
    have hnil : bs = [] := List.length_eq_zero_iff.mp hn
    exact ⟨h, fun rest => by rw [hnil, List.nil_append]⟩
  | succ n ih =>
    have hlong : 16 ≤ bs.length := by omega
    have hdrop : (bs.drop 16).length = 16 * n := by
      rw [List.length_drop]
      omega
    obtain ⟨h', hrest⟩ := ih (mixBlock h (getblock (bs.take 16))) hdrop
    refine ⟨h', fun rest => ?_⟩
    calc process (bs ++ rest) h
        = process (bs.take 16 ++ (bs.drop 16 ++ rest)) h := by
          rw [← List.append_assoc, List.take_append_drop]
      _ = process (bs.drop 16 ++ rest) (mixBlock h (getblock (bs.take 16))) :=
          process_block (List.length_take_of_le hlong) _ _
      _ = process rest h' := hrest rest

theorem getblock_injective {block block' : List Byte} (h : block.length = 16)
    (h' : block'.length = 16) (heq : getblock block = getblock block') : block = block' := by
  rw [getblock, getblock, Prod.mk.injEq] at heq
  obtain ⟨hfirst, hsecond⟩ := heq
  have hlow := littleEndian_injective (by simp [h, h']) (by simp [h]) hfirst
  have hhigh := littleEndian_injective (by simp [h, h']) (by simp [h]) hsecond
  rw [List.take_of_length_le (by simp [h]), List.take_of_length_le (by simp [h'])] at hhigh
  rw [← List.take_append_drop 8 block, ← List.take_append_drop 8 block', hlow, hhigh]

theorem mixTail_tail_injective {tail tail' : List Byte} (hshort : tail.length < 16)
    (hlength : tail.length = tail'.length) {h : Halves} (heq : mixTail tail h = mixTail tail' h) :
    tail = tail' := by
  simp only [mixTail, Prod.mk.injEq] at heq
  obtain ⟨h1, h2⟩ := heq
  rw [← hlength] at h1 h2
  have hlow : tail.take 8 = tail'.take 8 := by
    by_cases hone : 1 ≤ tail.length
    · rw [if_pos hone, if_pos hone] at h1
      have hword := mixK1_injective ((BitVec.xor_right_inj _).mp h1)
      exact littleEndian_injective (by simp [hlength]) (by rw [List.length_take]; omega) hword
    · have hnil : tail = [] := List.length_eq_zero_iff.mp (by omega)
      have hnil' : tail' = [] := List.length_eq_zero_iff.mp (by omega)
      rw [hnil, hnil']
  have hhigh : tail.drop 8 = tail'.drop 8 := by
    by_cases hnine : 9 ≤ tail.length
    · rw [if_pos hnine, if_pos hnine] at h2
      have hword := mixK2_injective ((BitVec.xor_right_inj _).mp h2)
      exact littleEndian_injective (by simp [hlength]) (by rw [List.length_drop]; omega) hword
    · rw [List.drop_of_length_le (by omega), List.drop_of_length_le (by omega)]
  rw [← List.take_append_drop 8 tail, ← List.take_append_drop 8 tail', hlow, hhigh]

/-- At the end of a key, or in front of what follows, a piece of up to 16 bytes shows in the
state. -/
theorem process_piece {piece piece' rest : List Byte} {h : Halves}
    (hlength : piece.length = piece'.length)
    (hpiece : piece.length = 16 ∨ piece.length < 16 ∧ rest = [])
    (heq : process (piece ++ rest) h = process (piece' ++ rest) h) : piece = piece' := by
  rcases hpiece with hfull | ⟨hshort, rfl⟩
  · rw [process_block hfull, process_block (hlength ▸ hfull)] at heq
    exact getblock_injective hfull (hlength ▸ hfull)
      (mixBlock_injective h (process_injective rest heq))
  · have hnone : piece.length / 16 = 0 := by omega
    have hnone' : piece'.length / 16 = 0 := by omega
    rw [List.append_nil, List.append_nil] at heq
    simp only [process, hnone, hnone', blocks, List.foldl_nil, mul_zero, List.drop_zero] at heq
    exact mixTail_tail_injective hshort hlength heq

/-- What a key's last piece, or a block of it, does to the hash. -/
theorem hash_piece {bs piece piece' rest : List Byte} {seed : BitVec 32} (hbs : 16 ∣ bs.length)
    (hlength : piece.length = piece'.length)
    (hpiece : piece.length = 16 ∨ piece.length < 16 ∧ rest = [])
    (heq : murmurHash3_x64_128 (bs ++ (piece ++ rest)) seed =
      murmurHash3_x64_128 (bs ++ (piece' ++ rest)) seed) : piece = piece' := by
  obtain ⟨h, hh⟩ := process_blocks hbs (seed.setWidth 64, seed.setWidth 64)
  have hsame : (bs ++ (piece ++ rest)).length = (bs ++ (piece' ++ rest)).length := by
    simp only [List.length_append, hlength]
  rw [murmurHash3_x64_128, murmurHash3_x64_128, hsame, hh, hh] at heq
  exact process_piece hlength hpiece (finalization_injective _ heq)

/-! ## The keys and the buckets -/

/-- Two different keys of one length that differ only within one block, or only in the tail,
have different hashes. -/
theorem hash_distinguishes {key key' : List Byte} {seed : BitVec 32} (i : Nat)
    (hlength : key.length = key'.length) (hbefore : key.take (16 * i) = key'.take (16 * i))
    (hafter : key.drop (16 * (i + 1)) = key'.drop (16 * (i + 1))) (hne : key ≠ key') :
    murmurHash3_x64_128 key seed ≠ murmurHash3_x64_128 key' seed := by
  intro heq
  apply hne
  have hsplit : ∀ k : List Byte, k.length = key.length →
      k = k.take (16 * i) ++ ((k.drop (16 * i)).take 16 ++ k.drop (16 * (i + 1))) := by
    intro k _
    rw [mul_add, mul_one, ← List.drop_drop, List.take_append_drop, List.take_append_drop]
  by_cases hlong : 16 * i ≤ key.length
  · have hbs : 16 ∣ (key.take (16 * i)).length := by
      rw [List.length_take_of_le hlong]
      exact Nat.dvd_mul_right 16 i
    have hpieces : ((key.drop (16 * i)).take 16).length =
      ((key'.drop (16 * i)).take 16).length := by
      simp only [List.length_take, List.length_drop, hlength]
    have hpiece : ((key.drop (16 * i)).take 16).length = 16 ∨
        ((key.drop (16 * i)).take 16).length < 16 ∧ key.drop (16 * (i + 1)) = [] := by
      rw [List.length_take, List.length_drop]
      by_cases hfull : 16 * (i + 1) ≤ key.length
      · exact Or.inl (by omega)
      · exact Or.inr ⟨by omega, List.drop_of_length_le (by omega)⟩
    rw [hsplit key rfl, hsplit key' hlength.symm, ← hbefore, ← hafter] at heq
    have hsame := hash_piece hbs hpieces hpiece heq
    rw [hsplit key rfl, hsplit key' hlength.symm, ← hbefore, ← hafter, hsame]
  · rwa [List.take_of_length_le (by omega), List.take_of_length_le (by omega)] at hbefore

theorem hash_distinguishes_tail :
    ([1, 2] : List Byte).length = 2 ∧
      murmurHash3_x64_128 [1, 2] 0 ≠ murmurHash3_x64_128 [1, 3] 0 :=
  ⟨rfl, hash_distinguishes 0 rfl rfl rfl (by decide)⟩

theorem block_bijective {bs : List Byte} (rest : List Byte) (seed : BitVec 32)
    (hbs : 16 ∣ bs.length) :
    Function.Bijective fun block : List.Vector Byte 16 =>
      murmurHash3_x64_128 (bs ++ (block.toList ++ rest)) seed := by
  rw [Nat.bijective_iff_injective_and_card]
  refine ⟨fun block block' heq => ?_, ?_⟩
  · have hlength : block.toList.length = block'.toList.length := by
      rw [block.toList_length, block'.toList_length]
    exact List.Vector.toList_injective
      (hash_piece hbs hlength (Or.inl block.toList_length) heq)
  · rw [Nat.card_eq_fintype_card, card_vector, ← Nat.card_eq_fintype_card, card_bitVec,
      Nat.card_prod,
      card_bitVec]
    norm_num

/-- Of all the blocks that can stand at one place of a key, the key's other bytes and the seed
given, exactly one leads to a given hash. So the keys that differ in this block are spread
over the buckets of a table as evenly as can be, whatever the number of buckets. -/
theorem blocks_evenly_spread {bs rest : List Byte} (hbs : 16 ∣ bs.length) :
    (∀ (seed : BitVec 32) (hash : Halves), ∃! block : List.Vector Byte 16,
      murmurHash3_x64_128 (bs ++ (block.toList ++ rest)) seed = hash) ∧
    ∀ m_size i, i < m_size →
      Nat.card {block : List.Vector Byte 16 //
        bucketOf m_size (bs ++ (block.toList ++ rest)) = i} =
      2 ^ 64 * (2 ^ 64 / m_size + if i < 2 ^ 64 % m_size then 1 else 0) := by
  refine ⟨fun seed hash => (block_bijective rest seed hbs).existsUnique hash, fun m_size i hi => ?_⟩
  rw [← card_sum_residue hi]
  have hhash := block_bijective rest 0 hbs
  apply Nat.card_eq_of_bijective
    (Subtype.map (q := fun h : Halves => (h.1 + h.2).toNat % m_size = i)
      (fun block : List.Vector Byte 16 => murmurHash3_x64_128 (bs ++ (block.toList ++ rest)) 0)
      fun _ hblock => hblock)
  constructor
  · exact Subtype.map_injective _ hhash.injective
  · rintro ⟨hash, hbucket⟩
    obtain ⟨block, hblock⟩ := hhash.surjective hash
    refine ⟨⟨block, ?_⟩, Subtype.ext hblock⟩
    rw [← hblock] at hbucket
    exact hbucket

theorem blocks_evenly_spread_three :
    (∃! block : List.Vector Byte 16,
      murmurHash3_x64_128 ([] ++ (block.toList ++ [7])) 1 = (2, 3)) ∧
    Nat.card {block : List.Vector Byte 16 // bucketOf 3 ([] ++ (block.toList ++ [7])) = 0} =
      2 ^ 64 * 6148914691236517206 := by
  have hspread := @blocks_evenly_spread [] [7] (Nat.dvd_zero 16)
  exact ⟨hspread.1 1 (2, 3), hspread.2 3 0 (by decide)⟩

end TokuBackup.Table
