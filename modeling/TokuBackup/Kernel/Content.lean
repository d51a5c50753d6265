import Mathlib.Tactic.Linarith
import Mathlib.Logic.Function.Basic

/-!
# The content of a regular file

A regular file is a length and a byte at every position; positions at or past the length
read as zero, so that a hole left by a write past the end, or by an extending truncate,
is zero. The two data calls the library mirrors are `write` (`pwrite` at an offset, in
full) and `truncate`.

The representation is a function and not a list of bytes: a file that was extended by
`ftruncate` to the largest offset is as cheap as an empty one.
-/

namespace TokuBackup.Kernel

/-- The content of a regular file. -/
structure Content where
  len : Nat
  byte : Nat → UInt8
  tail : ∀ i, len ≤ i → byte i = 0

namespace Content

@[ext]
theorem ext' {c d : Content} (hlen : c.len = d.len) (hbyte : ∀ i, c.byte i = d.byte i) :
    c = d := by
  obtain ⟨l, f, hf⟩ := c
  obtain ⟨m, g, hg⟩ := d
  cases hlen
  cases funext hbyte
  rfl

/-- The empty file. -/
def empty : Content := ⟨0, fun _ => 0, fun _ _ => rfl⟩

@[simp] theorem empty_len : empty.len = 0 := rfl

/-- Write `buf` in full at `offset`. Writing nothing changes nothing, not even the
length. -/
def write (c : Content) (offset : Nat) (buf : List UInt8) : Content where
  len := if buf = [] then c.len else max c.len (offset + buf.length)
  byte i := if offset ≤ i ∧ i < offset + buf.length then buf.getD (i - offset) 0 else c.byte i
  tail i hi := by
    split at hi
    · rename_i h
      subst h
      rw [if_neg (by simp only [List.length_nil]; omega)]
      exact c.tail i hi
    · rw [if_neg (by omega)]
      exact c.tail i (by omega)

/-- Set the length, cutting the file or extending it with zeros. -/
def truncate (c : Content) (length : Nat) : Content where
  len := length
  byte i := if i < length then c.byte i else 0
  tail i hi := if_neg (by omega)

/-- The bytes a read of `n` bytes at `offset` returns when all of them are there. -/
def read (c : Content) (offset n : Nat) : List UInt8 :=
  (List.range n).map fun i => c.byte (offset + i)

@[simp] theorem write_nil (c : Content) (offset : Nat) : c.write offset [] = c := by
  apply ext'
  · rfl
  · exact fun i => if_neg (by simp only [List.length_nil]; omega)

theorem write_len_of_ne {c : Content} {offset : Nat} {buf : List UInt8} (h : buf ≠ []) :
    (c.write offset buf).len = max c.len (offset + buf.length) := if_neg h

theorem len_le_write (c : Content) (offset : Nat) (buf : List UInt8) :
    c.len ≤ (c.write offset buf).len := by
  simp only [write]
  split <;> omega

theorem write_len_le {c : Content} {offset n : Nat} {buf : List UInt8} (hc : c.len ≤ n)
    (hw : buf ≠ [] → offset + buf.length ≤ n) : (c.write offset buf).len ≤ n := by
  simp only [write]
  split
  · exact hc
  · rename_i h
    have := hw h
    omega

theorem write_byte_in {c : Content} {offset i : Nat} {buf : List UInt8}
    (h : offset ≤ i ∧ i < offset + buf.length) :
    (c.write offset buf).byte i = buf.getD (i - offset) 0 := if_pos h

theorem write_byte_out {c : Content} {offset i : Nat} {buf : List UInt8}
    (h : ¬ (offset ≤ i ∧ i < offset + buf.length)) :
    (c.write offset buf).byte i = c.byte i := if_neg h

/-- Two writes, the second right behind the first. -/
theorem write_append (c : Content) (offset : Nat) (a b : List UInt8) :
    (c.write offset a).write (offset + a.length) b = c.write offset (a ++ b) := by
  apply ext'
  · simp only [write, List.append_eq_nil_iff, List.length_append]
    by_cases ha : a = []
    · simp [ha]
    · by_cases hb : b = []
      · simp [hb]
      · simp only [ha, hb, false_and, ↓reduceIte]
        omega
  · intro i
    simp only [write, List.length_append, List.getD_eq_getElem?_getD]
    by_cases hsecond : offset + a.length ≤ i ∧ i < offset + a.length + b.length
    · rw [if_pos hsecond, if_pos (by omega), List.getElem?_append_right (by omega)]
      congr 2
      omega
    · rw [if_neg hsecond]
      by_cases hfirst : offset ≤ i ∧ i < offset + a.length
      · rw [if_pos hfirst, if_pos (by omega), List.getElem?_append_left (by omega)]
      · rw [if_neg hfirst, if_neg (by omega)]

/-- What was written can be read off the result. -/
theorem write_inj {c : Content} {offset : Nat} {a b : List UInt8} (hlen : a.length = b.length)
    (h : c.write offset a = c.write offset b) : a = b := by
  apply List.ext_getElem hlen
  intro i ha hb
  have hbyte := congrFun (congrArg byte h) (offset + i)
  rw [write_byte_in (by omega), write_byte_in (by omega)] at hbyte
  simpa [List.getD_eq_getElem?_getD, ha, hb] using hbyte

@[simp] theorem truncate_len (c : Content) (length : Nat) : (c.truncate length).len = length :=
  rfl

theorem truncate_byte_lt {c : Content} {length i : Nat} (h : i < length) :
    (c.truncate length).byte i = c.byte i := if_pos h

theorem truncate_byte_ge {c : Content} {length i : Nat} (h : length ≤ i) :
    (c.truncate length).byte i = 0 := if_neg (by omega)

/-- Where two files agree, they agree after the same truncation. -/
theorem truncate_byte_congr {c d : Content} {length i : Nat} (h : c.byte i = d.byte i) :
    (c.truncate length).byte i = (d.truncate length).byte i := by
  simp only [truncate, h]

@[simp] theorem read_length (c : Content) (offset n : Nat) : (c.read offset n).length = n := by
  simp [read]

theorem read_getD {c : Content} {offset n i : Nat} (h : i < n) :
    (c.read offset n).getD i 0 = c.byte (offset + i) := by
  simp [read, List.getD_eq_getElem?_getD, h]

theorem truncate_zero (c : Content) : c.truncate 0 = empty := by
  apply ext'
  · rfl
  · exact fun i => truncate_byte_ge (Nat.zero_le i)

theorem truncate_self (c : Content) : c.truncate c.len = c := by
  apply ext'
  · rfl
  · intro i
    by_cases hi : i < c.len
    · exact truncate_byte_lt hi
    · rw [truncate_byte_ge (by omega), c.tail i (by omega)]

/-- A part of what was read, from `i` on. -/
theorem read_drop_take {c : Content} {offset n i m : Nat} (h : i + m ≤ n) :
    ((c.read offset n).drop i).take m = c.read (offset + i) m := by
  apply List.ext_getElem
  · simp only [List.length_take, List.length_drop, read_length]
    omega
  · intro j _ _
    simp [read, Nat.add_assoc]

/-- Writing bytes of `c` where they are in `c`, over a beginning of `c` or at its end. -/
theorem truncate_write_within {c : Content} {t w m : Nat} (hm : 0 < m) (hw : w ≤ t) :
    (c.truncate t).write w (c.read w m) = c.truncate (max t (w + m)) := by
  have hne : c.read w m ≠ [] := by
    intro h
    have hlen := congrArg List.length h
    rw [read_length] at hlen
    exact absurd hlen (by simp; omega)
  apply ext'
  · rw [write_len_of_ne hne, truncate_len, truncate_len, read_length]
  · intro i
    by_cases hin : w ≤ i ∧ i < w + m
    · rw [write_byte_in (by rw [read_length]; exact hin), read_getD (by omega),
        truncate_byte_lt (by omega)]
      congr 1
      omega
    · rw [write_byte_out (by rw [read_length]; exact hin)]
      by_cases hi : i < t
      · rw [truncate_byte_lt hi, truncate_byte_lt (by omega)]
      · rw [truncate_byte_ge (by omega), truncate_byte_ge (by omega)]

/-- Writing the next bytes of `c` at the end of a beginning of `c` makes that longer. -/
theorem truncate_write_read {c : Content} {w m : Nat} (hm : 0 < m) :
    (c.truncate w).write w (c.read w m) = c.truncate (w + m) := by
  rw [truncate_write_within hm (Nat.le_refl w), Nat.max_eq_right (Nat.le_add_right w m)]

end Content

end TokuBackup.Kernel
