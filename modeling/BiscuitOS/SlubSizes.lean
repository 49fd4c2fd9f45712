import BiscuitOS.SlubLayout

/-!
# Sizes, alignments and orders of slabs

The search for an order ends with a block that holds an object, and the word
with the order and the number of objects is read back.
-/

namespace BiscuitOS.SlubSizes

open MachineWord SlubLayout

/-- Halving stops at a power of two. -/
theorem halveAlign_spec {size : ℕ} (hsize : 0 < size) (fuel j : ℕ) :
    ∃ i, i ≤ j ∧ halveAlign size fuel (2 ^ j) = 2 ^ i := by
  induction fuel generalizing j with
  | zero => exact ⟨j, le_rfl, rfl⟩
  | succ fuel ih =>
    rw [halveAlign]
    by_cases hhalve : size ≤ 2 ^ j / 2
    · rw [if_pos hhalve]
      obtain ⟨j', rfl⟩ : ∃ j', j = j' + 1 := by
        cases j with
        | zero =>
          rw [pow_zero] at hhalve
          omega
        | succ j' => exact ⟨j', rfl⟩
      have hhalf : 2 ^ (j' + 1) / 2 = 2 ^ j' := by rw [pow_succ, Nat.mul_div_cancel _ (by decide)]
      rw [hhalf]
      obtain ⟨i, hi, heq⟩ := ih j'
      exact ⟨i, by omega, heq⟩
    · rw [if_neg hhalve]
      exact ⟨j, le_rfl, rfl⟩

/-- An alignment that is asked for: none, or a power of two up to a page. -/
def Asked (align : ℕ) : Prop := align = 0 ∨ ∃ k, k ≤ 12 ∧ align = 2 ^ k

/-- Rounding a power of two up to words. -/
theorem alignUp_word {k : ℕ} (h3 : 3 ≤ k) (h12 : k ≤ 12) : alignUp 64 (2 ^ k) 8 = 2 ^ k := by
  have hpow : 2 ^ k ≤ 2 ^ 12 := Nat.pow_le_pow_right (by decide) h12
  have hspec := @alignUp_spec 64 (2 ^ k) 3 (by decide) (by omega)
  have hdvd : 2 ^ 3 ∣ 2 ^ k := Nat.pow_dvd_pow 2 h3
  have height : (2 : ℕ) ^ 3 = 8 := by decide
  rw [height] at hspec hdvd
  omega

/-- The greater one of two powers. -/
theorem max_two_pow (k i : ℕ) : max (2 ^ k) (2 ^ i) = 2 ^ max k i := by
  rcases le_total k i with h | h
  · rw [max_eq_right h, max_eq_right (Nat.pow_le_pow_right (by decide) h)]
  · rw [max_eq_left h, max_eq_left (Nat.pow_le_pow_right (by decide) h)]

/-- The alignment of objects is a power of two up to a page and a multiple of the one asked
for. -/
theorem calculateAlignment_spec {align size : ℕ} (flags : ℕ) (halign : Asked align)
    (hsize : 0 < size) :
    ∃ k, 3 ≤ k ∧ k ≤ 12 ∧ calculateAlignment flags align size = 2 ^ k ∧
      (align = 0 ∨ align ∣ 2 ^ k) := by
  generalize hfirst : (if flags &&& slabHwcacheAlign ≠ 0 then
    max align (halveAlign size 64 cacheLineSize) else align) = first
  have hasked : first = 0 ∧ align = 0 ∨
      ∃ k, k ≤ 12 ∧ first = 2 ^ k ∧ (align = 0 ∨ align ∣ 2 ^ k) := by
    obtain ⟨i, hi, hhalve⟩ := halveAlign_spec hsize 64 5
    have hline : cacheLineSize = 2 ^ 5 := by decide
    rw [hline, hhalve] at hfirst
    rw [← hfirst]
    by_cases hflag : flags &&& slabHwcacheAlign ≠ 0
    · rw [if_pos hflag]
      rcases halign with hzero | ⟨k, hk, hpow⟩
      · exact .inr ⟨i, by omega, by rw [hzero, Nat.zero_max], .inl hzero⟩
      · refine .inr ⟨max k i, by omega, ?_, .inr ?_⟩
        · rw [hpow, max_two_pow]
        · rw [hpow]
          exact Nat.pow_dvd_pow 2 (le_max_left k i)
    · rw [if_neg hflag]
      rcases halign with hzero | ⟨k, hk, hpow⟩
      · exact .inl ⟨hzero, hzero⟩
      · exact .inr ⟨k, hk, hpow, .inr (by rw [hpow])⟩
  rw [calculateAlignment, hfirst, archSlabMinalign, sizeofPointer]
  have hword : alignUp 64 8 8 = 8 := by decide +kernel
  by_cases hsmall : first < 8
  · rw [if_pos hsmall]
    refine ⟨3, le_rfl, by decide, hword, ?_⟩
    rcases hasked with ⟨_, hzero⟩ | ⟨k, _, hpow, hdvd⟩
    · exact .inl hzero
    · have hk : k ≤ 3 := by
        by_contra hk
        have := Nat.pow_le_pow_right (show 0 < 2 by decide) (show 3 ≤ k by omega)
        omega
      exact hdvd.imp_right fun h => h.trans (Nat.pow_dvd_pow 2 hk)
  · rw [if_neg hsmall]
    rcases hasked with ⟨hzero, _⟩ | ⟨k, hk, hpow, hdvd⟩
    · omega
    · have h3 : 3 ≤ k := by
        by_contra h3
        have := Nat.pow_le_pow_right (show 0 < 2 by decide) (show k ≤ 2 by omega)
        omega
      exact ⟨k, h3, hk, by rw [hpow, alignUp_word h3 hk], hdvd⟩

/-- What the loop of `slab_order` ends with holds the objects wanted. -/
theorem slabOrderFrom_holds {size : ℤ} {minObjects limit fract wanted : ℕ}
    (hwanted : toUnsigned 64 (toSigned 32 (minObjects * size)) = wanted) (fuel order : ℕ)
    (hfuel : limit < order + fuel)
    (hle : slabOrderFrom size minObjects limit fract fuel order ≤ limit) :
    wanted ≤ pageSize <<< slabOrderFrom size minObjects limit fract fuel order := by
  induction fuel generalizing order with
  | zero =>
    rw [slabOrderFrom] at hle
    omega
  | succ fuel ih =>
    rw [slabOrderFrom, hwanted] at hle ⊢
    dsimp only at hle ⊢
    by_cases hend : limit < order
    · rw [if_pos hend] at hle
      omega
    · rw [if_neg hend] at hle ⊢
      by_cases hsmall : pageSize <<< order < wanted
      · rw [if_pos hsmall] at hle ⊢
        exact ih (order + 1) (by omega) hle
      · rw [if_neg hsmall] at hle ⊢
        generalize toUnsigned 64 (toSigned 32 ↑(pageSize <<< order % toUnsigned 64 size)) = rem at hle ⊢
        by_cases hrem : rem ≤ pageSize <<< order / fract
        · rw [if_pos hrem]
          exact not_lt.mp hsmall
        · rw [if_neg hrem] at hle ⊢
          exact ih (order + 1) (by omega) hle

/-- When any rest may be wasted the loop ends with the first order that holds the objects. -/
theorem slabOrderFrom_first {size : ℤ} {minObjects limit wanted : ℕ} (hlimit : limit ≤ maxOrder)
    (hwanted : toUnsigned 64 (toSigned 32 (minObjects * size)) = wanted) (fuel order : ℕ) :
    slabOrderFrom size minObjects limit 1 fuel order = order ∨
      order < slabOrderFrom size minObjects limit 1 fuel order ∧
        pageSize <<< (slabOrderFrom size minObjects limit 1 fuel order - 1) < wanted := by
  induction fuel generalizing order with
  | zero => exact .inl rfl
  | succ fuel ih =>
    rw [slabOrderFrom, hwanted]
    dsimp only
    by_cases hend : limit < order
    · rw [if_pos hend]
      exact .inl rfl
    · rw [if_neg hend]
      by_cases hsmall : pageSize <<< order < wanted
      · rw [if_pos hsmall]
        rcases ih (order + 1) with hsame | ⟨hlt, hfirst⟩
        · rw [hsame, Nat.add_sub_cancel]
          exact .inr ⟨by omega, hsmall⟩
        · exact .inr ⟨by omega, hfirst⟩
      · rw [if_neg hsmall]
        have hrem : toUnsigned 64 (toSigned 32 ↑(pageSize <<< order % toUnsigned 64 size)) ≤
            pageSize <<< order / 1 := by
          have hpow : 2 ^ order ≤ 2 ^ 11 := by
            refine Nat.pow_le_pow_right (by decide) ?_
            rw [maxOrder] at hlimit
            omega
          have hle := Nat.mod_le (pageSize <<< order) (toUnsigned 64 size)
          have hslab : pageSize <<< order ≤ 4096 * 2 ^ 11 := by
            rw [Nat.shiftLeft_eq, pageSize]
            omega
          generalize pageSize <<< order % toUnsigned 64 size = rem at hle
          have hint : toSigned 32 (rem : ℤ) = rem := toSigned_of_lt (by decide) (by omega)
          have hword : (toUnsigned 64 (rem : ℤ) : ℤ) = rem := toUnsigned_of_lt (by omega) (by omega)
          rw [hint, Nat.div_one]
          omega
        rw [if_pos hrem]
        exact .inl rfl

/-- A size of an `int` as an unsigned word. -/
theorem toUnsigned_nat {n : ℕ} (h : n < 2 ^ 64) : toUnsigned 64 (n : ℤ) = n := by
  have hword : (toUnsigned 64 (n : ℤ) : ℤ) = n := toUnsigned_of_lt (by omega) (by exact_mod_cast h)
  exact_mod_cast hword

/-- The bytes of the objects wanted. -/
theorem wanted_eq {n minObjects : ℕ} (h : minObjects * n < 2 ^ 31) :
    toUnsigned 64 (toSigned 32 ((minObjects : ℤ) * (n : ℤ))) = minObjects * n := by
  rw [← Nat.cast_mul, toSigned_of_lt (by decide) h, toUnsigned_nat (by omega)]

/-- The first guard of `slab_order` is never met. -/
theorem slabOrder_eq (size : ℤ) (minObjects limit fract : ℕ) :
    slabOrder size minObjects limit fract =
      slabOrderFrom size minObjects limit fract (limit + 1)
        (fls (toSigned 32 (toSigned 32 (minObjects * size) - 1)) - pageShift) := by
  have hpage : pageSize <<< slubMinOrder = 4096 := by decide
  have hle := Nat.div_le_self 4096 (toUnsigned 64 size)
  have hmax : maxObjsPerPage = 65535 := rfl
  rw [slabOrder, hpage, if_neg (by omega), slubMinOrder, Nat.zero_max]

/-- An order within the limit holds the objects. -/
theorem slabOrder_holds {n minObjects limit fract : ℕ} (h : minObjects * n < 2 ^ 31)
    (hle : slabOrder n minObjects limit fract ≤ limit) :
    minObjects * n ≤ pageSize <<< slabOrder n minObjects limit fract := by
  rw [slabOrder_eq] at hle ⊢
  exact slabOrderFrom_holds (wanted_eq h) _ _ (by omega) hle

/-- The first order for one object is none, or a lower one does not hold it. -/
theorem slabOrder_first {n limit : ℕ} (hpos : 0 < n) (h : n < 2 ^ 31) (hlimit : limit ≤ maxOrder) :
    slabOrder n 1 limit 1 = 0 ∨ pageSize <<< (slabOrder n 1 limit 1 - 1) < n := by
  have hone : (1 : ℕ) * n < 2 ^ 31 := by omega
  have hwanted := wanted_eq hone
  rw [slabOrder_eq]
  rcases slabOrderFrom_first hlimit hwanted (limit + 1)
    (fls (toSigned 32 (toSigned 32 ((1 : ℕ) * (n : ℤ)) - 1)) - pageShift) with hsame | ⟨_, hfirst⟩
  · rw [hsame]
    have hbits : toSigned 32 (toSigned 32 ((1 : ℕ) * (n : ℤ)) - 1) = ((n - 1 : ℕ) : ℤ) := by
      rw [Nat.cast_one, one_mul, toSigned_of_lt (by decide) (by omega)]
      have hsub : (n : ℤ) - 1 = ((n - 1 : ℕ) : ℤ) := by omega
      rw [hsub, toSigned_of_lt (by decide) (by omega)]
    have hword : toUnsigned 32 ((n - 1 : ℕ) : ℤ) = n - 1 := by
      have hcast : (toUnsigned 32 ((n - 1 : ℕ) : ℤ) : ℤ) = ((n - 1 : ℕ) : ℤ) :=
        toUnsigned_of_lt (by omega) (by omega)
      exact_mod_cast hcast
    rw [hbits, fls, hword]
    by_cases hsmall : Nat.size (n - 1) ≤ 12
    · exact .inl (by rw [pageShift]; omega)
    · have hlast : 2 ^ (Nat.size (n - 1) - 1) ≤ n - 1 := Nat.lt_size.mp (by omega)
      have hslab : pageSize <<< (Nat.size (n - 1) - pageShift - 1) = 2 ^ (Nat.size (n - 1) - 1) := by
        have hpow : pageSize = 2 ^ 12 := by decide
        have hexp : 12 + (Nat.size (n - 1) - 12 - 1) = Nat.size (n - 1) - 1 := by omega
        rw [Nat.shiftLeft_eq, hpow, ← pow_add, pageShift, hexp]
      exact .inr (by rw [hslab]; omega)
  · exact .inr (by rwa [Nat.one_mul] at hfirst)

/-- An order found for several objects holds them. -/
theorem tryFractions_spec {n minObjects : ℕ} (h : minObjects * n < 2 ^ 31) {fuel fraction order : ℕ}
    (hsome : tryFractions n minObjects fuel fraction = some order) :
    order ≤ slubMaxOrder ∧ minObjects * n ≤ pageSize <<< order := by
  induction fuel generalizing fraction with
  | zero => cases hsome
  | succ fuel ih =>
    rw [tryFractions] at hsome
    by_cases hfew : fraction < 4
    · rw [if_pos hfew] at hsome
      cases hsome
    · rw [if_neg hfew] at hsome
      dsimp only at hsome
      by_cases hle : slabOrder n minObjects slubMaxOrder fraction ≤ slubMaxOrder
      · rw [if_pos hle, Option.some.injEq] at hsome
        rw [← hsome]
        exact ⟨hle, slabOrder_holds h hle⟩
      · rw [if_neg hle] at hsome
        exact ih hsome

/-- An order found for more than one object holds one. -/
theorem tryObjects_spec {n k order : ℕ} (h : k * n < 2 ^ 31) (hsome : tryObjects n k = some order) :
    order ≤ slubMaxOrder ∧ n ≤ pageSize <<< order := by
  induction k with
  | zero => cases hsome
  | succ k ih =>
    cases k with
    | zero => cases hsome
    | succ k =>
      rw [tryObjects] at hsome
      cases htry : tryFractions n (k + 2) 16 16 with
      | some found =>
        rw [htry, Option.some.injEq] at hsome
        rw [← hsome]
        obtain ⟨hle, hholds⟩ := tryFractions_spec h htry
        have hone : n ≤ (k + 2) * n := Nat.le_mul_of_pos_left n (by omega)
        exact ⟨hle, hone.trans hholds⟩
      | none =>
        rw [htry] at hsome
        have hless : (k + 1) * n ≤ (k + 1 + 1) * n := Nat.mul_le_mul_right n (by omega)
        exact ih (by omega) hsome

/-- The order of slabs holds an object, and one above `slub_max_order` holds no second one. -/
theorem calculateOrder_spec {n : ℕ} (hpos : 0 < n) (h : n < 2 ^ 31)
    (horder : 0 ≤ calculateOrder n) :
    ∃ order : ℕ, calculateOrder n = order ∧ order < maxOrder ∧ n ≤ pageSize <<< order ∧
      (order ≤ slubMaxOrder ∨ pageSize <<< (order - 1) < n) := by
  have hmax : maxOrder = 11 := rfl
  have hcostly : slubMaxOrder = 3 := rfl
  have hblock : pageSize <<< slubMaxOrder = 32768 := by decide
  have hone : (1 : ℕ) * n < 2 ^ 31 := by omega
  rw [calculateOrder, toUnsigned_nat (by omega), hblock] at horder ⊢
  dsimp only at horder ⊢
  generalize hk : min (if slubMinObjects = 0 then 4 * (fls nrCpuIds + 1) else slubMinObjects)
    (32768 / n) = k at horder ⊢
  have hfew : k * n < 2 ^ 31 := by
    have hle : k * n ≤ 32768 / n * n := Nat.mul_le_mul_right n (by omega)
    have := Nat.div_mul_le_self 32768 n
    omega
  cases htry : tryObjects n k with
  | some order =>
    obtain ⟨hle, hholds⟩ := tryObjects_spec hfew htry
    exact ⟨order, rfl, by omega, hholds, .inl hle⟩
  | none =>
    rw [htry] at horder
    dsimp only at horder ⊢
    by_cases hsmall : slabOrder n 1 slubMaxOrder 1 ≤ slubMaxOrder
    · have hholds := slabOrder_holds hone hsmall
      rw [if_pos hsmall]
      exact ⟨_, rfl, by omega, by rwa [Nat.one_mul] at hholds, .inl hsmall⟩
    · rw [if_neg hsmall] at horder ⊢
      by_cases hlarge : slabOrder n 1 maxOrder 1 < maxOrder
      · have hholds := slabOrder_holds hone hlarge.le
        rw [if_pos hlarge]
        refine ⟨_, rfl, hlarge, by rwa [Nat.one_mul] at hholds, ?_⟩
        rcases slabOrder_first hpos h le_rfl with hzero | hfirst
        · exact .inl (by rw [hzero]; omega)
        · exact .inr hfirst
      · rw [if_neg hlarge] at horder
        have : (-enosys : ℤ) < 0 := by decide
        omega

/-- The first order for a size that is negative as an `int` is above every limit. -/
theorem slabOrder_negative {n limit : ℕ} (hlo : 2 ^ 31 ≤ n) (hhi : n < 2 ^ 32)
    (hlimit : limit ≤ maxOrder) : limit < slabOrder (toSigned 32 n) 1 limit 1 := by
  have hmax : maxOrder = 11 := rfl
  have hmod : (toSigned 32 ((1 : ℕ) * toSigned 32 n) - 1) % 2 ^ 32 = ((n - 1 : ℕ) : ℤ) := by
    have hsub : ((n : ℤ) - 1) % 2 ^ 32 = ((n - 1 : ℕ) : ℤ) := by omega
    have hpow : ((2 ^ 32 : ℕ) : ℤ) = 2 ^ 32 := by norm_num
    rw [toSigned, toSigned, Nat.cast_one, one_mul, ← hpow, Int.sub_emod, Int.bmod_emod,
      Int.bmod_emod, ← Int.sub_emod, hpow, hsub]
  have hword : toUnsigned 32 (toSigned 32 (toSigned 32 ((1 : ℕ) * toSigned 32 n) - 1)) = n - 1 := by
    have hpow : ((2 ^ 32 : ℕ) : ℤ) = 2 ^ 32 := by norm_num
    rw [toUnsigned, toSigned, ← hpow, Int.bmod_emod, hpow, hmod, Int.toNat_natCast]
  have hbits : 30 < Nat.size (n - 1) := Nat.lt_size.mpr (by omega)
  rw [slabOrder_eq, fls, hword, slabOrderFrom, pageShift, if_pos (by omega)]
  omega

/-- There is no order for a size that is negative as an `int`. -/
theorem calculateOrder_negative {n : ℕ} (hlo : 2 ^ 31 ≤ n) (hhi : n < 2 ^ 32) :
    calculateOrder (toSigned 32 n) < 0 := by
  have hsmall := slabOrder_negative hlo hhi (show slubMaxOrder ≤ maxOrder by decide)
  have hlarge := slabOrder_negative hlo hhi (le_refl maxOrder)
  have hblock : pageSize <<< slubMaxOrder = 32768 := by decide
  have hint : toSigned 32 n = (n : ℤ) - 2 ^ 32 := by
    rw [toSigned, Int.bmod_def]
    omega
  have hword : 2 ^ 63 ≤ toUnsigned 64 (toSigned 32 n) := by
    rw [hint, toUnsigned]
    omega
  have hnone : 32768 / toUnsigned 64 (toSigned 32 n) = 0 := Nat.div_eq_of_lt (by omega)
  rw [calculateOrder, hblock, hnone, Nat.min_zero, tryObjects]
  dsimp only
  rw [if_neg (not_le.mpr hsmall), if_neg (not_lt.mpr hlarge.le)]
  decide

/-- The order and the number of objects are read back from their word. -/
theorem ooMake_spec {order size : ℕ} (h : (pageSize <<< order) / size < 2 ^ ooShift) :
    ooOrder (ooMake order size) = order ∧
      ooObjects (ooMake order size) = (pageSize <<< order) / size := by
  rw [ooOrder, ooObjects, ooMake, ooShift, Nat.shiftLeft_eq, Nat.shiftRight_eq_div_pow,
    Nat.and_two_pow_sub_one_eq_mod]
  rw [ooShift] at h
  generalize (pageSize <<< order) / size = objects at h ⊢
  omega

/-- The loop of `get_order` ends with the order of the last bit. -/
theorem orderFrom_spec (fuel x order : ℕ) (h : x < 2 ^ fuel) :
    ∃ k, orderFrom fuel x order = order + k ∧ x < 2 ^ (k + 1) ∧ (k = 0 ∨ 2 ^ k ≤ x) := by
  induction fuel generalizing x order with
  | zero => exact ⟨0, rfl, by omega, .inl rfl⟩
  | succ fuel ih =>
    rw [orderFrom]
    by_cases hlast : x / 2 = 0
    · rw [if_pos hlast]
      exact ⟨0, rfl, by omega, .inl rfl⟩
    · rw [if_neg hlast]
      rw [pow_succ] at h
      obtain ⟨k, heq, hlt, hge⟩ := ih (x / 2) (order + 1) (by omega)
      have hpow : 2 ^ (k + 2) = 2 * 2 ^ (k + 1) := pow_succ' 2 (k + 1)
      have hpow' : 2 ^ (k + 1) = 2 * 2 ^ k := pow_succ' 2 k
      refine ⟨k + 1, by omega, by omega, .inr ?_⟩
      rcases hge with hzero | hge
      · rw [hzero]
        omega
      · omega

/-- The smallest order of a block that holds a size. -/
theorem getOrder_spec {size : ℕ} (hpos : 0 < size) (h : size < 2 ^ 64) :
    size ≤ pageSize <<< getOrder size ∧
      (getOrder size = 0 ∨ pageSize <<< (getOrder size - 1) < size) := by
  have hshift : (size - 1) >>> (pageShift - 1) = (size - 1) / 2 ^ 11 := Nat.shiftRight_eq_div_pow _ _
  obtain ⟨k, heq, hlt, hge⟩ := orderFrom_spec 64 ((size - 1) / 2 ^ 11) 0 (by omega)
  have hpow : 2 ^ (k + 1) = 2 * 2 ^ k := pow_succ' 2 k
  rw [getOrder, if_neg (by omega), hshift, heq, Nat.zero_add, Nat.shiftLeft_eq, Nat.shiftLeft_eq,
    pageSize]
  refine ⟨by omega, ?_⟩
  cases k with
  | zero => exact .inl rfl
  | succ k =>
    have hpow' : 2 ^ (k + 1) = 2 * 2 ^ k := pow_succ' 2 k
    rw [Nat.add_sub_cancel]
    exact .inr (by omega)

/-- What `calculate_sizes` settles on for an object size and an alignment asked for. -/
structure Layout (objsize align : ℕ) (s : KmemCache) (size offset k : ℕ) : Prop where
  /-- `size`. -/
  size_eq : s.size = size
  /-- `offset`. -/
  offset_eq : s.offset = offset
  /-- `align`. -/
  align_eq : s.align = (2 ^ k : ℕ)
  /-- The alignment is one of words and pages. -/
  align_le : 3 ≤ k ∧ k ≤ 12
  /-- It is a multiple of the one asked for. -/
  asked : align = 0 ∨ align ∣ 2 ^ k
  /-- Objects are aligned. -/
  dvd : 2 ^ k ∣ size
  /-- Objects hold what was asked for. -/
  objsize_le : objsize ≤ size
  /-- The size is that of an `int`. -/
  size_lt : size < 2 ^ 31
  /-- The free pointer lies in the object. -/
  pointer : offset + 8 ≤ size
  /-- It is the first word, or lies behind what was asked for. -/
  relocated : offset = 0 ∨ objsize ≤ offset
  /-- With a constructor it is not the first word. -/
  constructed : s.ctor.isSome → objsize ≤ offset

/-- A word with an order and the number of objects of a block of this order. -/
structure Packed (size oo order : ℕ) : Prop where
  /-- The word was made of the order. -/
  made : oo = ooMake order size
  /-- The order. -/
  order_eq : ooOrder oo = order
  /-- The number of objects. -/
  objects_eq : ooObjects oo = (pageSize <<< order) / size
  /-- The page allocator has blocks of this order. -/
  order_lt : order < maxOrder
  /-- A block holds an object. -/
  objects_pos : 0 < (pageSize <<< order) / size
  /-- The number fits `objects` of a page. -/
  objects_lt : (pageSize <<< order) / size < 2 ^ 16

/-- Packing an order whose blocks hold an object, and unless it is low no second one. -/
theorem ooMake_packed {order size : ℕ} (hsize : 8 ≤ size) (hlt : order < maxOrder)
    (hholds : size ≤ pageSize <<< order)
    (hfew : order ≤ slubMaxOrder ∨ pageSize <<< (order - 1) < size) :
    Packed size (ooMake order size) order := by
  have hobjects : (pageSize <<< order) / size < 2 ^ 16 := by
    rcases hfew with hlow | hfirst
    · have hpow : 2 ^ order ≤ 2 ^ 3 := Nat.pow_le_pow_right (by decide) hlow
      have hblock : pageSize <<< order ≤ 32768 := by
        rw [Nat.shiftLeft_eq, pageSize]
        omega
      exact (Nat.div_le_self _ _).trans_lt (by omega)
    · have hquot : (pageSize <<< order) / size ≤ 4096 := by
        cases order with
        | zero =>
          rw [Nat.shiftLeft_zero, pageSize]
          exact Nat.div_le_self _ _
        | succ order =>
          have hdouble : pageSize <<< (order + 1) = 2 * pageSize <<< order := by
            rw [Nat.shiftLeft_eq, Nat.shiftLeft_eq, pow_succ']
            ring
          rw [Nat.add_sub_cancel] at hfirst
          have hlt : (pageSize <<< (order + 1)) / size < 2 := by
            rw [Nat.div_lt_iff_lt_mul (by omega)]
            omega
          omega
      omega
  obtain ⟨horder, hcount⟩ := ooMake_spec hobjects
  exact ⟨rfl, horder, hcount, hlt, Nat.div_pos hholds (by omega), hobjects⟩

/-- The order of the smallest blocks for a size is not above one that holds it. -/
theorem getOrder_le {size order : ℕ} (hpos : 0 < size) (h : size < 2 ^ 64)
    (hholds : size ≤ pageSize <<< order) : getOrder size ≤ order := by
  obtain ⟨_, hzero | hfirst⟩ := getOrder_spec hpos h
  · omega
  · by_contra hlt
    have hle : pageSize <<< order ≤ pageSize <<< (getOrder size - 1) := by
      rw [Nat.shiftLeft_eq, Nat.shiftLeft_eq]
      exact Nat.mul_le_mul_left _ (Nat.pow_le_pow_right (by decide) (by omega))
    omega

/-- The bytes in use, with the free pointer behind them when it is moved there. -/
theorem used_spec {objsize : ℕ} (hobj : objsize < 2 ^ 31) (moved : Bool) {inuse used : ℕ}
    (hinuse : alignUp 64 objsize 8 = inuse)
    (hused : (if moved then wrap 64 (inuse + 8) else inuse) = used) :
    objsize ≤ inuse ∧ inuse < objsize + 8 ∧ 8 ∣ inuse ∧
      used = if moved then inuse + 8 else inuse := by
  have hspec := @alignUp_spec 64 objsize 3 (by decide) (by omega)
  have height : (2 : ℕ) ^ 3 = 8 := by decide
  rw [height, hinuse] at hspec
  refine ⟨hspec.1, hspec.2.1, hspec.2.2, ?_⟩
  rw [← hused, wrap_of_lt (by omega)]

/-- A cache with an order has the layout that was asked for. -/
theorem calculateSizes_layout {objsize align flags : ℕ}
    {ctor : Option (ℕ → ByteMemory.Memory → ByteMemory.Memory)}
    (hpos : 0 < objsize) (hobj : objsize < 2 ^ 31) (halign : Asked align) {s : KmemCache}
    (h : calculateSizes (openedCache objsize align flags ctor) = (s, true)) :
    ∃ size offset k order, Layout objsize align s size offset k ∧ Packed size s.oo order ∧
      Packed size s.min (getOrder size) ∧ s.ctor = ctor := by
  have haligned : align < 2 ^ 64 := by
    rcases halign with hzero | ⟨k, hk, hpow⟩
    · omega
    · have := Nat.pow_le_pow_right (show 0 < 2 by decide) hk
      omega
  obtain ⟨k, h3, h12, hcalc, hasked⟩ := calculateAlignment_spec flags halign hpos
  have hpow : 2 ^ k ≤ 2 ^ 12 := Nat.pow_le_pow_right (by decide) h12
  rw [calculateSizes] at h
  generalize hmoved : relocates (openedCache objsize align flags ctor) = moved at h
  have hctor : ctor.isSome = true → moved = true := by
    intro hsome
    rw [← hmoved, relocates, openedCache, hsome, Bool.or_true]
  simp only [openedCache] at h
  have hword : toUnsigned 64 (objsize : ℤ) = objsize := toUnsigned_nat (hobj.trans (by norm_num))
  have hask : toUnsigned 64 (align : ℤ) = align := toUnsigned_nat haligned
  simp only [hword, hask, sizeofPointer, hcalc] at h
  generalize hinuse : alignUp 64 objsize 8 = inuse at h
  generalize hused : (if moved then wrap 64 (inuse + 8) else inuse) = used at h
  obtain ⟨hle, hnear, _, hwhere⟩ := used_spec hobj moved hinuse hused
  have hbound : inuse ≤ used ∧ used ≤ inuse + 8 ∧ (moved = true → used = inuse + 8) := by
    rw [hwhere]
    cases moved <;> simp
  obtain ⟨hge, hclose, hdvd⟩ := @alignUp_spec 64 used k (by omega) (by omega)
  generalize alignUp 64 used (2 ^ k) = size at h hge hclose hdvd
  have hsize : size < 2 ^ 31 := by
    by_contra hlarge
    have hneg := calculateOrder_negative (n := size) (by omega) (by omega)
    rw [if_pos hneg, Prod.mk.injEq] at h
    exact Bool.false_ne_true h.2
  rw [toSigned_of_lt (n := size) (by decide) hsize, toSigned_of_lt (n := inuse) (by decide) (by omega),
    toSigned_of_lt (n := 2 ^ k) (by decide) (by omega)] at h
  by_cases horder : calculateOrder size < 0
  · rw [if_pos horder, Prod.mk.injEq] at h
    exact absurd h.2 Bool.false_ne_true
  · rw [if_neg horder, Prod.mk.injEq] at h
    obtain ⟨order, heq, hlt, hholds, hfew⟩ :=
      calculateOrder_spec (by omega) hsize (not_lt.mp horder)
    have hsmallest := @getOrder_spec size (by omega) (by omega)
    have hlower := getOrder_le (by omega) (by omega) hholds
    rw [heq, Int.toNat_natCast] at h
    rw [← h.1]
    refine ⟨size, if moved then inuse else 0, k, order, ?_, ?_, ?_, rfl⟩
    · constructor
      · rfl
      · cases moved <;> rfl
      · rfl
      · exact ⟨h3, h12⟩
      · exact hasked
      · exact hdvd
      · omega
      · exact hsize
      · cases moved with
        | false =>
          rw [if_neg Bool.false_ne_true]
          omega
        | true => exact (hbound.2.2 rfl).symm.le.trans hge
      · cases moved with
        | false => exact .inl rfl
        | true => exact .inr hle
      · intro hsome
        rw [hctor hsome]
        exact hle
    · exact ooMake_packed (by omega) hlt hholds hfew
    · exact ooMake_packed (by omega) (by omega) hsmallest.1 (hsmallest.2.imp_left fun h => by omega)

end BiscuitOS.SlubSizes
