import Mathlib

/-!
# Bitmaps in memory words

A bitmap is the memory from its first word on, so that an index past its end
still reads a word, of unknown content. Setting and clearing go through the
mask of one place; the lemmas give each operation by the bits it leaves.
-/

namespace BiscuitOS.WordBitmap

variable {w : ℕ}

/-- The words of memory from the start of a bitmap on. -/
abbrev Words (w : ℕ) := ℕ → BitVec w

/-- Bit `i`: place `i % w` of word `i / w`. -/
def bit (map : Words w) (i : ℕ) : Bool := (map (i / w)).getLsbD (i % w)

/-- The word with the place of bit `i` only. -/
def place (w i : ℕ) : BitVec w := 1#w <<< (i % w)

/-- Or the place of bit `i` into its word. -/
def setBit (map : Words w) (i : ℕ) : Words w :=
  Function.update map (i / w) (map (i / w) ||| place w i)

/-- Mask the place of bit `i` out of its word. -/
def clearBit (map : Words w) (i : ℕ) : Words w :=
  Function.update map (i / w) (map (i / w) &&& ~~~place w i)

/-- The bits of a place. -/
theorem place_getLsbD (hw : 0 < w) (i j : ℕ) :
    (place w i).getLsbD j = decide (j = i % w) := by
  have hi : i % w < w := Nat.mod_lt i hw
  by_cases hj : j < w
  · by_cases hlt : j < i % w
    · have hne : j ≠ i % w := by omega
      simp [place, hlt, hne]
    · have hone : (j - i % w = 0) ↔ j = i % w := by omega
      simp [place, hj, hlt, hone]
  · have hne : j ≠ i % w := by omega
    simp [place, hj, hne]

/-- Two indices with one word and one place are one index. -/
theorem index_eq_iff (i j : ℕ) : i = j ↔ i / w = j / w ∧ i % w = j % w := by
  constructor
  · intro h
    simp [h]
  · intro h
    rw [← Nat.div_add_mod i w, ← Nat.div_add_mod j w, h.1, h.2]

/-- A word masked with a place is zero exactly when the bit is clear. -/
theorem and_place_eq_zero_iff (hw : 0 < w) (map : Words w) (i : ℕ) :
    map (i / w) &&& place w i = 0#w ↔ bit map i = false := by
  constructor
  · intro h
    have hb : (map (i / w) &&& place w i).getLsbD (i % w) = false := by simp [h]
    simpa [bit, place_getLsbD hw] using hb
  · intro h
    apply BitVec.eq_of_getLsbD_eq
    intro j hj
    by_cases hji : j = i % w
    · simpa [bit, hji, place_getLsbD hw] using h
    · simp [place_getLsbD hw, hji]

/-- Setting a bit sets that bit only. -/
theorem bit_setBit (hw : 0 < w) (map : Words w) (i j : ℕ) :
    bit (setBit map i) j = (decide (j = i) || bit map j) := by
  by_cases hd : j / w = i / w
  · have hiff : j = i ↔ j % w = i % w := by simp [index_eq_iff (w := w) j i, hd]
    simp [bit, setBit, hd, place_getLsbD hw, hiff, Bool.or_comm]
  · have hne : j ≠ i := fun h => hd (by rw [h])
    simp [bit, setBit, Function.update_of_ne hd, hne]

/-- Clearing a bit clears that bit only. -/
theorem bit_clearBit (hw : 0 < w) (map : Words w) (i j : ℕ) :
    bit (clearBit map i) j = (!decide (j = i) && bit map j) := by
  by_cases hd : j / w = i / w
  · have hj : j % w < w := Nat.mod_lt j hw
    have hiff : j = i ↔ j % w = i % w := by simp [index_eq_iff (w := w) j i, hd]
    simp only [bit, clearBit, hd, Function.update_self, BitVec.getLsbD_and, BitVec.getLsbD_not,
      place_getLsbD hw, hiff, hj, decide_true, Bool.true_and]
    rw [Bool.and_comm]
  · have hne : j ≠ i := fun h => hd (by rw [h])
    simp [bit, clearBit, Function.update_of_ne hd, hne]

/-- A bitmap is known by its bits. -/
theorem ext_bit (hw : 0 < w) {a b : Words w} (h : ∀ i, bit a i = bit b i) : a = b := by
  funext n
  apply BitVec.eq_of_getLsbD_eq
  intro j hj
  have hi := h (n * w + j)
  have hdiv : (n * w + j) / w = n := by
    rw [Nat.add_comm, Nat.add_mul_div_right _ _ hw, Nat.div_eq_of_lt hj, Nat.zero_add]
  have hmod : (n * w + j) % w = j := by
    rw [Nat.add_comm, Nat.add_mul_mod_self_right, Nat.mod_eq_of_lt hj]
  simpa only [bit, hdiv, hmod] using hi

/-- Set the `n` bits from `i` on. -/
def setBits (map : Words w) (i : ℕ) : ℕ → Words w
  | 0 => map
  | n + 1 => setBits (setBit map i) (i + 1) n

/-- Clear the `n` bits from `i` on. -/
def clearBits (map : Words w) (i : ℕ) : ℕ → Words w
  | 0 => map
  | n + 1 => clearBits (clearBit map i) (i + 1) n

/-- The bits after setting a run. -/
theorem bit_setBits (hw : 0 < w) (n : ℕ) (map : Words w) (i j : ℕ) :
    bit (setBits map i n) j = (decide (i ≤ j ∧ j < i + n) || bit map j) := by
  induction n generalizing map i with
  | zero =>
    have hempty : ¬(i ≤ j ∧ j < i + 0) := by omega
    simp only [setBits, hempty, decide_false, Bool.false_or]
  | succ n ih =>
    have hrun : (i ≤ j ∧ j < i + (n + 1)) ↔ (i + 1 ≤ j ∧ j < i + 1 + n) ∨ j = i := by omega
    simp only [setBits, ih, bit_setBit hw, hrun, Bool.decide_or, Bool.or_assoc]

/-- The bits after clearing a run. -/
theorem bit_clearBits (hw : 0 < w) (n : ℕ) (map : Words w) (i j : ℕ) :
    bit (clearBits map i n) j = (!decide (i ≤ j ∧ j < i + n) && bit map j) := by
  induction n generalizing map i with
  | zero =>
    have hempty : ¬(i ≤ j ∧ j < i + 0) := by omega
    simp only [clearBits, hempty, decide_false, Bool.not_false, Bool.true_and]
  | succ n ih =>
    have hrun : (i ≤ j ∧ j < i + (n + 1)) ↔ (i + 1 ≤ j ∧ j < i + 1 + n) ∨ j = i := by omega
    simp only [clearBits, ih, bit_clearBit hw, hrun, Bool.decide_or, Bool.not_or, Bool.and_assoc]

end BiscuitOS.WordBitmap
