import Mathlib

/-!
# Unsigned machine words and alignment

Fixed-width unsigned values are naturals below a power of two. Wrapping,
wrapping subtraction and the two mask-based roundings are computed on the
actual bit patterns; the lemmas give their arithmetic meaning at powers of
two whenever no carry leaves the word.
-/

namespace BiscuitOS.MachineWord

/-- Truncation of a value to a word of `w` bits. -/
def wrap (w n : ℕ) : ℕ := n % 2 ^ w

/-- Unsigned subtraction of words of `w` bits. -/
def wrapSub (w a b : ℕ) : ℕ := (a + (2 ^ w - b % 2 ^ w)) % 2 ^ w

/-- The signed value of a word of `w` bits. -/
def toSigned (w : ℕ) (x : ℤ) : ℤ := Int.bmod x (2 ^ w)

/-- A signed value as an unsigned word of `w` bits. -/
def toUnsigned (w : ℕ) (x : ℤ) : ℕ := (x % 2 ^ w).toNat

/-- Clear the low bits of `x` selected by the mask `a - 1`, as `x & ~(a - 1)` does. -/
def alignDown (w x a : ℕ) : ℕ := (BitVec.ofNat w x &&& ~~~(BitVec.ofNat w a - 1#w)).toNat

/-- Add the mask `a - 1` and clear the low bits, as `(x + (a - 1)) & ~(a - 1)` does. -/
def alignUp (w x a : ℕ) : ℕ := alignDown w (x + wrapSub w a 1) a

/-- A value that already fits is not truncated. -/
theorem wrap_of_lt {w n : ℕ} (h : n < 2 ^ w) : wrap w n = n := Nat.mod_eq_of_lt h

/-- Every truncated value fits its word. -/
theorem wrap_lt (w n : ℕ) : wrap w n < 2 ^ w := Nat.mod_lt _ (by positivity)

/-- Subtraction without borrow is the natural difference. -/
theorem wrapSub_of_le {w a b : ℕ} (ha : a < 2 ^ w) (h : b ≤ a) : wrapSub w a b = a - b := by
  have hb : b % 2 ^ w = b := Nat.mod_eq_of_lt (by omega)
  have he : a + (2 ^ w - b) = (a - b) + 2 ^ w := by omega
  rw [wrapSub, hb, he, Nat.add_mod_right, Nat.mod_eq_of_lt (by omega)]

/-- Decrementing zero gives the largest word. -/
theorem wrapSub_zero_one {w : ℕ} (hw : 0 < w) : wrapSub w 0 1 = 2 ^ w - 1 := by
  have h : 1 < 2 ^ w := Nat.one_lt_two_pow (by omega)
  rw [wrapSub, Nat.mod_eq_of_lt h, Nat.zero_add, Nat.mod_eq_of_lt (by omega)]

/-- A small value is its own signed value. -/
theorem toSigned_of_lt {w n : ℕ} (hw : 0 < w) (h : n < 2 ^ (w - 1)) : toSigned w n = n := by
  have hpow : 2 ^ w = 2 * 2 ^ (w - 1) := by
    rw [← pow_succ', Nat.sub_add_cancel hw]
  have hlow : -(((2 * 2 ^ (w - 1) : ℕ) : ℤ) / 2) ≤ (n : ℤ) := by omega
  have hhigh : (n : ℤ) < (((2 * 2 ^ (w - 1) : ℕ) : ℤ) + 1) / 2 := by omega
  rw [toSigned, hpow]
  exact Int.bmod_eq_of_le hlow hhigh

/-- A small value is its own unsigned value. -/
theorem toUnsigned_of_lt {w : ℕ} {x : ℤ} (h0 : 0 ≤ x) (h : x < 2 ^ w) : (toUnsigned w x : ℤ) = x := by
  rw [toUnsigned, Int.emod_eq_of_lt h0 h, Int.toNat_of_nonneg h0]

/-- An `int` of 32 bits, extended to a word of 64. -/
theorem toUnsigned_toSigned (x : ℕ) : toUnsigned 64 (toSigned 32 x) =
    if x % 2 ^ 32 < 2 ^ 31 then x % 2 ^ 32 else x % 2 ^ 32 + (2 ^ 64 - 2 ^ 32) := by
  rw [toUnsigned, toSigned, Int.bmod_def]
  split <;> split <;> omega

/-- Masking out a bit pattern subtracts exactly the masked part. -/
theorem and_not_toNat {w : ℕ} (x m : BitVec w) :
    (x &&& ~~~m).toNat = x.toNat - (x.toNat &&& m.toNat) := by
  have hz : (x &&& m) &&& (x &&& ~~~m) = 0#w := by
    ext i hi
    simp only [BitVec.getElem_and, BitVec.getElem_not, BitVec.getElem_zero]
    cases x[i] <;> cases m[i] <;> rfl
  have ho : (x &&& m) ||| (x &&& ~~~m) = x := by
    ext i hi
    simp only [BitVec.getElem_or, BitVec.getElem_and, BitVec.getElem_not]
    cases x[i] <;> cases m[i] <;> rfl
  have hs : (x &&& m) + (x &&& ~~~m) = x := by
    rw [BitVec.add_eq_or_of_and_eq_zero _ _ hz, ho]
  have he : x &&& ~~~m = x - (x &&& m) := by
    rw [eq_comm, BitVec.sub_eq_iff_eq_add, BitVec.add_comm, hs]
  have hle : x &&& m ≤ x := by
    rw [BitVec.le_def, BitVec.toNat_and]
    exact Nat.and_le_left
  rw [he, BitVec.toNat_sub_of_le hle, BitVec.toNat_and]

/-- At a power of two the downward rounding drops the remainder. -/
theorem alignDown_two_pow {w x k : ℕ} (hx : x < 2 ^ w) (hk : k < w) :
    alignDown w x (2 ^ k) = x - x % 2 ^ k := by
  have hlt : 2 ^ k < 2 ^ w := Nat.pow_lt_pow_right (by omega) hk
  have hone : 1 ≤ 2 ^ k := Nat.one_le_two_pow
  have hm : (BitVec.ofNat w (2 ^ k) - 1#w).toNat = 2 ^ k - 1 := by
    rw [BitVec.toNat_sub_of_le]
    · rw [BitVec.toNat_ofNat, BitVec.toNat_ofNat, Nat.mod_eq_of_lt hlt,
        Nat.mod_eq_of_lt (by omega)]
    · rw [BitVec.le_def, BitVec.toNat_ofNat, BitVec.toNat_ofNat, Nat.mod_eq_of_lt hlt,
        Nat.mod_eq_of_lt (by omega)]
      exact hone
  rw [alignDown, and_not_toNat, hm, BitVec.toNat_ofNat, Nat.mod_eq_of_lt hx,
    Nat.and_two_pow_sub_one_eq_mod]

/-- The three facts used of a downward rounding. -/
theorem alignDown_spec {w x k : ℕ} (hx : x < 2 ^ w) (hk : k < w) :
    alignDown w x (2 ^ k) ≤ x ∧ x < alignDown w x (2 ^ k) + 2 ^ k ∧
      2 ^ k ∣ alignDown w x (2 ^ k) := by
  have hm : x % 2 ^ k < 2 ^ k := Nat.mod_lt _ (by positivity)
  rw [alignDown_two_pow hx hk]
  exact ⟨Nat.sub_le _ _, by omega, Nat.dvd_sub_mod x⟩

/-- Rounding never leaves the word, whatever the mask is. -/
theorem alignDown_lt (w x a : ℕ) : alignDown w x a < 2 ^ w := BitVec.isLt _

/-- Rounding down is the greatest multiple not above `x`. -/
theorem le_alignDown {w x k q : ℕ} (hx : x < 2 ^ w) (hk : k < w) (hq : 2 ^ k ∣ q) (hle : q ≤ x) :
    q ≤ alignDown w x (2 ^ k) := by
  have hdiv : x - x % 2 ^ k = 2 ^ k * (x / 2 ^ k) := by
    have := Nat.div_add_mod x (2 ^ k)
    omega
  rw [alignDown_two_pow hx hk, hdiv, ← Nat.mul_div_cancel' hq]
  exact Nat.mul_le_mul_left _ (Nat.div_le_div_right hle)

/-- Without a carry the upward rounding is the least multiple not below `x`. -/
theorem alignUp_spec {w x k : ℕ} (hk : k < w) (hx : x + 2 ^ k ≤ 2 ^ w) :
    x ≤ alignUp w x (2 ^ k) ∧ alignUp w x (2 ^ k) < x + 2 ^ k ∧
      2 ^ k ∣ alignUp w x (2 ^ k) := by
  have hone : 1 ≤ 2 ^ k := Nat.one_le_two_pow
  have hlt : 2 ^ k < 2 ^ w := Nat.pow_lt_pow_right (by omega) hk
  have hs : wrapSub w (2 ^ k) 1 = 2 ^ k - 1 := wrapSub_of_le hlt hone
  obtain ⟨hle, hgt, hd⟩ := alignDown_spec (x := x + (2 ^ k - 1)) (by omega) hk
  rw [alignUp, hs]
  exact ⟨by omega, by omega, hd⟩

/-- Rounding up gives a multiple, also when the sum wraps. -/
theorem alignUp_dvd {w k : ℕ} (hk : k < w) (x : ℕ) : 2 ^ k ∣ alignUp w x (2 ^ k) := by
  have hword : ∀ y, BitVec.ofNat w (y % 2 ^ w) = BitVec.ofNat w y := fun y =>
    BitVec.eq_of_toNat_eq (by rw [BitVec.toNat_ofNat, BitVec.toNat_ofNat, Nat.mod_mod])
  have hcut : alignUp w x (2 ^ k) = alignDown w ((x + wrapSub w (2 ^ k) 1) % 2 ^ w) (2 ^ k) := by
    rw [alignUp, alignDown, alignDown, hword]
  rw [hcut]
  exact (alignDown_spec (Nat.mod_lt _ (by positivity)) hk).2.2

end BiscuitOS.MachineWord
