import BiscuitOS.SortHeap

/-!
# What sorting does

The two phases of `sort` build a heap and put the greatest elements behind.
The array is sorted exactly when no element sinks, while the heap is built,
to a place without children.
-/

namespace BiscuitOS.SortOrder

open MachineWord HeapOrder SortModel SortHeap

/-- The elements of an array by place. -/
def elements (p : SortCall) (mem : Bytes) (i : ℕ) : List UInt8 := element mem p.size (i * p.size)

/-- `cmp_func` is a total preorder on the elements of an array. -/
structure Compares (p : SortCall) (mem : Bytes) : Prop where
  /-- The sign turns with the order of the arguments. -/
  sign : ∀ i < p.num, ∀ j < p.num, p.cmpFunc (elements p mem i) (elements p mem j) < 0 ↔
    0 < p.cmpFunc (elements p mem j) (elements p mem i)
  /-- Comparisons chain. -/
  trans : ∀ i < p.num, ∀ j < p.num, ∀ k < p.num,
    p.cmpFunc (elements p mem i) (elements p mem j) ≤ 0 →
    p.cmpFunc (elements p mem j) (elements p mem k) ≤ 0 →
    p.cmpFunc (elements p mem i) (elements p mem k) ≤ 0

/-- The second array has the elements of the first one in order. -/
structure Sorted (p : SortCall) (mem mem' : Bytes) : Prop where
  /-- The elements are the same. -/
  perm : ((List.range p.num).map (elements p mem')).Perm ((List.range p.num).map (elements p mem))
  /-- They are in order. -/
  order : ∀ i j, i < j → j < p.num → p.cmpFunc (elements p mem' i) (elements p mem' j) ≤ 0

/-- No element sinks to a place without children while the heap is built; for an empty array, the
size of an element is positive as an `int`. -/
def Settles (p : SortCall) (mem : Bytes) : Prop :=
  if p.num = 0 then 0 < p.size % 2 ^ 32 ∧ p.size % 2 ^ 32 ≤ 2 ^ 31
  else StaysInside (leOf p) (elements p mem) p.num (p.num / 2)

instance (p : SortCall) (mem : Bytes) : Decidable (Settles p mem) :=
  inferInstanceAs (Decidable (if p.num = 0 then _ else _))

variable {p : SortCall} {mem : Bytes} {f : ℕ → List UInt8} {k fuel : ℕ}

/-- The values of an array compare. -/
theorem Compares.totalPreorder (h : Compares p mem) :
    TotalPreorderOn (leOf p) {x | ∃ i < p.num, x = elements p mem i} where
  total := by
    rintro _ ⟨i, hi, rfl⟩ _ ⟨j, hj, rfl⟩
    have hs := h.sign i hi j hj
    simp only [leOf]
    omega
  trans := by
    rintro _ ⟨i, hi, rfl⟩ _ ⟨j, hj, rfl⟩ _ ⟨k, hk, rfl⟩ hij hjk
    have hs₁ := h.sign i hi j hj
    have hs₂ := h.sign j hj k hk
    have hs₃ := h.sign i hi k hk
    have hs₄ := h.sign j hj i hi
    have hs₅ := h.sign k hk j hj
    have hs₆ := h.sign k hk i hi
    have ht := h.trans i hi j hj k hk
    simp only [leOf] at hij hjk ⊢
    omega

/-- A round of the loop that builds the heap. -/
theorem heapify_round (h : Fits p) (hh : Holds p mem f) (hk : k < p.num / 2)
    (hfuel : p.num ≤ fuel) :
    (2 * (sink (leOf p) f p.num k p.num).2 + 1 < p.num → ∃ mem',
      heapify p mem (k * p.size : ℕ) (fuel + 1) = heapify p mem' (lower p (k * p.size : ℕ)) fuel ∧
        Holds p mem' (sink (leOf p) f p.num k p.num).1) ∧
    (¬ 2 * (sink (leOf p) f p.num k p.num).2 + 1 < p.num →
      heapify p mem (k * p.size : ℕ) (fuel + 1) = none) := by
  have hpos : (0 : ℤ) ≤ (k * p.size : ℕ) := Int.natCast_nonneg _
  have hgo : below p (k * p.size : ℕ) p.stop = true := by
    rw [h.stop_eq, h.below_eq (show k < p.num by omega) le_rfl]
    exact decide_eq_true (by omega)
  have hsame : sink (leOf p) f p.num k (fuel + 1) = sink (leOf p) f p.num k p.num :=
    sink_fuel (by omega) (by omega)
  obtain ⟨hstay, hleave⟩ := @Fits.siftDown_build _ _ _ k (fuel + 1)
    (fun _ => below p (k * p.size : ℕ) p.stop) h hh (by omega) (fun _ => hgo) (by omega)
  rw [hsame] at hstay hleave
  constructor
  · intro hin
    obtain ⟨mem', hsift, hh'⟩ := hstay hin
    exact ⟨mem', by rw [heapify, if_pos hpos, hsift, Option.bind_some], hh'⟩
  · intro hout
    rw [heapify, if_pos hpos, hleave hout, Option.bind_none]

/-- The loop that builds the heap. -/
theorem heapify_build (h : Fits p) (hh : Holds p mem f) (hk : k < p.num / 2)
    (hfuel : p.num + k + 1 < fuel) :
    (StaysInside (leOf p) f p.num (k + 1) → ∃ mem',
      heapify p mem (k * p.size : ℕ) fuel = some mem' ∧
        Holds p mem' (build (leOf p) f p.num (k + 1))) ∧
    (¬ StaysInside (leOf p) f p.num (k + 1) → heapify p mem (k * p.size : ℕ) fuel = none) := by
  induction k generalizing f mem fuel with
  | zero =>
    obtain ⟨fuel, rfl⟩ : ∃ n, fuel = n + 1 := ⟨fuel - 1, by omega⟩
    obtain ⟨hstay, hleave⟩ := @heapify_round _ _ _ _ fuel h hh hk (by omega)
    constructor
    · intro hin
      obtain ⟨mem', heq, hh'⟩ := hstay hin.1
      obtain ⟨fuel, rfl⟩ : ∃ n, fuel = n + 1 := ⟨fuel - 1, by omega⟩
      have hneg := (h.lower_eq h.nonempty).2
      rw [heq, heapify, if_neg (by omega)]
      exact ⟨mem', rfl, hh'⟩
    · intro hout
      refine hleave fun hc => hout ?_
      rw [StaysInside]
      exact ⟨hc, trivial⟩
  | succ k ih =>
    obtain ⟨fuel, rfl⟩ : ∃ n, fuel = n + 1 := ⟨fuel - 1, by omega⟩
    obtain ⟨hstay, hleave⟩ := @heapify_round _ _ _ _ fuel h hh hk (by omega)
    have hlower := (h.lower_eq (show k < p.num by omega)).1
    rw [StaysInside, build]
    by_cases hrest : 2 * (sink (leOf p) f p.num (k + 1) p.num).2 + 1 < p.num
    · obtain ⟨mem', heq, hh'⟩ := hstay hrest
      obtain ⟨hin, hout⟩ := @ih _ _ fuel hh' (by omega) (by omega)
      rw [heq, hlower]
      exact ⟨fun hs => hin hs.2, fun hs => hout fun hc => hs ⟨hrest, hc⟩⟩
    · exact ⟨fun hs => absurd hs.1 hrest, fun _ => hleave hrest⟩

/-- The loop that puts the greatest elements behind. -/
theorem sortDown_extract (h : Fits p) (hh : Holds p mem f) (hk : k < p.num) (hfuel : 2 * k + 1 < fuel) :
    ∃ mem', sortDown p mem (k * p.size : ℕ) fuel = some mem' ∧ Holds p mem' (extract (leOf p) f k) := by
  induction k generalizing f mem fuel with
  | zero =>
    obtain ⟨fuel, rfl⟩ : ∃ n, fuel = n + 1 := ⟨fuel - 1, by omega⟩
    rw [Nat.zero_mul, sortDown, if_neg (by decide)]
    exact ⟨mem, rfl, hh⟩
  | succ k ih =>
    obtain ⟨fuel, rfl⟩ : ∃ n, fuel = n + 1 := ⟨fuel - 1, by omega⟩
    have hpos : (0 : ℤ) < ((k + 1) * p.size : ℕ) := by
      have hmul : 0 < (k + 1) * p.size := Nat.mul_pos (Nat.succ_pos k) h.pos
      exact_mod_cast hmul
    have hzero : (0 : ℤ) = (0 * p.size : ℕ) := by rw [Nat.zero_mul, Nat.cast_zero]
    obtain ⟨mem₁, hexchange, hh₁⟩ := h.exchange_eq hh h.nonempty hk (Nat.succ_ne_zero k).symm
    obtain ⟨mem₂, hsift, hh₂⟩ := @Fits.siftDown_sink _ _ _ (k + 1) _ (fuel + 1) h hh₁ hk.le
      h.nonempty (by omega) (Nat.succ_pos _)
    have hsame : sink (leOf p) (swap f 0 (k + 1)) (k + 1) 0 (fuel + 1) =
        sink (leOf p) (swap f 0 (k + 1)) (k + 1) 0 (k + 1) := sink_fuel (by omega) (by omega)
    rw [hsame] at hh₂
    rw [← hzero] at hexchange hsift
    obtain ⟨mem₃, hrest, hh₃⟩ := @ih _ _ fuel hh₂ (by omega) (by omega)
    refine ⟨mem₃, ?_, hh₃⟩
    rw [sortDown, if_pos hpos, hexchange, Option.bind_some, hsift, Option.bind_some,
      (h.lower_eq (show k < p.num by omega)).1]
    exact hrest

/-- The first place of the first phase. -/
theorem heapify_start (h : Fits p) :
    toInt (wrap 64 (wrapSub 64 (p.num / 2) 1 * p.size)) =
      if p.num / 2 = 0 then -(p.size : ℤ) else ((p.num / 2 - 1) * p.size : ℕ) := by
  have hsize := h.place_lt h.nonempty le_rfl
  have hpos := h.pos
  split
  · rename_i hzero
    have hone : wrap 64 (wrapSub 64 0 1 * p.size) = 2 ^ 64 - 2 ^ 32 + (2 ^ 32 - p.size) := by
      rw [wrapSub_zero_one (by decide), wrap]
      omega
    rw [hzero, hone, toInt_add, toInt_of_ge (by omega) (by omega)]
    omega
  · rename_i hzero
    have hle : (p.num / 2 - 1) * p.size ≤ p.num * p.size := Nat.mul_le_mul_right _ (by omega)
    have hnum : p.num < 2 ^ 64 := by
      have hmul : p.num ≤ p.num * p.size := Nat.le_mul_of_pos_right _ hpos
      omega
    rw [wrapSub_of_le (by omega) (by omega), wrap_of_lt (by omega), toInt_of_lt (by omega)]

/-- The first place of the second phase. -/
theorem sortDown_start (h : Fits p) :
    toInt (wrapSub 64 (toSize p.stop) p.size) = ((p.num - 1) * p.size : ℕ) := by
  have hsize := h.place_lt h.nonempty le_rfl
  have hbound := h.bound
  have hsub : (p.num - 1) * p.size = p.num * p.size - p.size := Nat.sub_one_mul _ _
  have hle : p.size ≤ p.num * p.size := Nat.le_mul_of_pos_left _ h.nonempty
  rw [h.stop_eq, toSize_of_lt hbound, wrapSub_of_le (by omega) hle, hsub, toInt_of_lt (by omega)]

/-- An array with an element is sorted, or the loop that builds the heap leaves it. -/
theorem sort_nonempty (h : Fits p) (hcmp : Compares p mem) (hfuel : 2 * p.num + 1 < fuel) :
    (StaysInside (leOf p) (elements p mem) p.num (p.num / 2) →
      ∃ mem', sort p mem fuel = some mem' ∧ Sorted p mem mem') ∧
    (¬ StaysInside (leOf p) (elements p mem) p.num (p.num / 2) → sort p mem fuel = none) := by
  have hh : Holds p mem (elements p mem) := fun i _ => rfl
  have hsorted := heapSort_sorted hcmp.totalPreorder (f := elements p mem)
    (fun i hi => ⟨i, hi, rfl⟩) h.nonempty
  have hphase : ∀ mem', Holds p mem' (build (leOf p) (elements p mem) p.num (p.num / 2)) →
      ∃ mem₂, sortDown p mem' (toInt (wrapSub 64 (toSize p.stop) p.size)) fuel = some mem₂ ∧
        Sorted p mem mem₂ := by
    intro mem' hh'
    have hlast : p.num - 1 < p.num := Nat.sub_one_lt h.nonempty.ne'
    obtain ⟨mem₂, hdown, hh₂⟩ := sortDown_extract h hh' hlast (show 2 * (p.num - 1) + 1 < fuel by omega)
    have hfinal : ∀ i < p.num, elements p mem₂ i =
        extract (leOf p) (build (leOf p) (elements p mem) p.num (p.num / 2)) (p.num - 1) i := hh₂
    rw [sortDown_start h]
    refine ⟨mem₂, hdown, ?_, fun i j hij hj => ?_⟩
    · have hmap : (List.range p.num).map (elements p mem₂) = (List.range p.num).map
          (extract (leOf p) (build (leOf p) (elements p mem) p.num (p.num / 2)) (p.num - 1)) :=
        List.map_congr_left fun i hi => hfinal i (List.mem_range.mp hi)
      rw [hmap]
      exact hsorted.1
    · have hmem : ∀ i < p.num, ∃ j < p.num, elements p mem₂ i = elements p mem j := fun i hi => by
        have hin := hsorted.1.mem_iff.mp
          (List.mem_map_of_mem (f := extract (leOf p) _ (p.num - 1)) (List.mem_range.mpr hi))
        obtain ⟨j, hj, heq⟩ := List.mem_map.mp hin
        exact ⟨j, List.mem_range.mp hj, (hfinal i hi).trans heq.symm⟩
      have hle := hsorted.2 i j hij hj
      rw [← hfinal i (by omega), ← hfinal j hj] at hle
      obtain ⟨i', hi', hi''⟩ := hmem i (by omega)
      obtain ⟨j', hj', hj''⟩ := hmem j hj
      rw [hi'', hj''] at hle ⊢
      have hsign := hcmp.sign j' hj' i' hi'
      rw [leOf] at hle
      omega
  rw [sort, heapify_start h]
  by_cases hzero : p.num / 2 = 0
  · obtain ⟨fuel, rfl⟩ : ∃ n, fuel = n + 1 := ⟨fuel - 1, by omega⟩
    have hpos := h.pos
    rw [hzero] at hphase ⊢
    rw [if_pos rfl, heapify, if_neg (by omega), Option.bind_some]
    exact ⟨fun _ => hphase mem hh, fun hn => absurd trivial hn⟩
  · obtain ⟨k, hk⟩ := Nat.exists_eq_succ_of_ne_zero hzero
    rw [Nat.succ_eq_add_one] at hk
    obtain ⟨hin, hout⟩ := heapify_build (k := k) h hh (by omega) (show p.num + k + 1 < fuel by omega)
    rw [hk] at hphase ⊢
    rw [if_neg (Nat.succ_ne_zero k), Nat.add_sub_cancel]
    constructor
    · intro hs
      obtain ⟨mem', heq, hh'⟩ := hin hs
      rw [heq, Option.bind_some]
      exact hphase mem' hh'
    · intro hs
      rw [hout hs, Option.bind_none]

/-- The sign of the negative of a size as an `int`. -/
theorem toInt_neg_size (x : ℤ) (size : ℕ) (h : x % 2 ^ 32 = -(size : ℤ) % 2 ^ 32) :
    (toInt x < 0 ↔ 0 < size % 2 ^ 32 ∧ size % 2 ^ 32 ≤ 2 ^ 31) ∧
      (toInt x = 0 ↔ size % 2 ^ 32 = 0) := by
  have hpow : ((2 ^ 32 : ℕ) : ℤ) = 2 ^ 32 := by norm_num
  rw [toInt, toSigned, Int.bmod, hpow, h]
  split <;> omega

/-- Sorting an array without elements. -/
theorem sort_empty (hnum : p.num = 0) (hpos : 0 < p.size) :
    (0 < p.size % 2 ^ 32 ∧ p.size % 2 ^ 32 ≤ 2 ^ 31 → ∀ fuel, sort p mem (fuel + 1) = some mem) ∧
    (¬ (0 < p.size % 2 ^ 32 ∧ p.size % 2 ^ 32 ≤ 2 ^ 31) → sort p mem fuel = none) := by
  have hstop : p.stop = 0 := by
    rw [SortCall.stop, hnum, Nat.zero_mul]
    decide
  have hone : wrapSub 64 (p.num / 2) 1 = 2 ^ 64 - 1 := by
    rw [hnum, Nat.zero_div, wrapSub_zero_one (by decide)]
  have hfirst : ((wrap 64 (wrapSub 64 (p.num / 2) 1 * p.size) : ℕ) : ℤ) % 2 ^ 32 =
      -(p.size : ℤ) % 2 ^ 32 := by
    rw [hone, wrap]
    omega
  have hsize : toSize 0 = 0 := by decide
  have hsecond : ((wrapSub 64 0 p.size : ℕ) : ℤ) % 2 ^ 32 = -(p.size : ℤ) % 2 ^ 32 := by
    rw [wrapSub]
    omega
  obtain ⟨hneg, hzero⟩ := toInt_neg_size _ _ hfirst
  obtain ⟨hneg', hzero'⟩ := toInt_neg_size _ _ hsecond
  constructor
  · intro hs fuel
    have hlt := hneg.mpr hs
    have hlt' := hneg'.mpr hs
    rw [sort, hstop, hsize, heapify, if_neg (not_le.mpr hlt), Option.bind_some, sortDown,
      if_neg (not_lt.mpr hlt'.le)]
  · intro hs
    have hge : ¬ toInt (wrapSub 64 0 p.size : ℕ) < 0 := fun hc => hs (hneg'.mp hc)
    by_cases hz : p.size % 2 ^ 32 = 0
    · have hloop : ∀ fuel mem, heapify p mem 0 fuel = none := by
        intro fuel
        induction fuel with
        | zero => exact fun _ => rfl
        | succ fuel ih =>
          intro mem
          have hlower : lower p 0 = 0 := by
            rw [lower, hsize]
            exact hzero'.mpr hz
          rw [heapify, if_pos le_rfl, hlower]
          exact Option.bind_eq_none_iff.mpr fun mem' _ => ih mem'
      rw [sort, hzero.mpr hz, hloop, Option.bind_none]
    · have hgt : 0 < toInt (wrapSub 64 0 p.size : ℕ) := by
        have hne : toInt (wrapSub 64 0 p.size : ℕ) ≠ 0 := fun hc => hz (hzero'.mp hc)
        exact lt_of_le_of_ne (not_lt.mp hge) hne.symm
      have hout : p.inside 0 = false := by
        rw [SortCall.inside, hnum, Bool.and_eq_false_iff, decide_eq_false_iff_not,
          decide_eq_false_iff_not]
        have hover : (0 : ℤ) < 0 + p.size := by
          rw [zero_add]
          exact_mod_cast hpos
        exact Or.inr (by rwa [Nat.cast_zero, zero_mul, not_le])
      rw [sort, hstop, hsize]
      refine Option.bind_eq_none_iff.mpr fun mem' _ => ?_
      cases fuel with
      | zero => rw [sortDown]
      | succ fuel =>
        rw [sortDown, if_pos hgt, exchange, hout, Bool.false_and, if_neg Bool.false_ne_true,
          Option.bind_none]

/-- `sort` comes back with the elements in order if and only if no element sinks, while the heap is
built, to a place without children. -/
theorem sort_iff (p : SortCall) (mem : Bytes) (hpos : 0 < p.size) (hbound : p.num * p.size < 2 ^ 31)
    (hcmp : Compares p mem)
    (hswap : ∀ swapper, p.swapFunc = some swapper → Exchanges swapper p.size) :
    (∃ enough, ∀ fuel ≥ enough, ∃ mem', sort p mem fuel = some mem' ∧ Sorted p mem mem') ↔
      Settles p mem := by
  have hswaps : Exchanges p.swapper p.size := by
    rw [SortCall.swapper]
    cases hs : p.swapFunc with
    | some swapper => exact hswap swapper hs
    | none =>
      rw [Option.getD_none]
      split
      · rename_i hfour
        rw [hfour]
        exact u32Swap_exchanges
      · exact genericSwap_exchanges hpos
  rw [Settles]
  split
  · rename_i hnum
    constructor
    · rintro ⟨enough, hgood⟩
      obtain ⟨mem', heq, -⟩ := hgood enough le_rfl
      by_contra hs
      rw [(sort_empty hnum hpos).2 hs] at heq
      cases heq
    · intro hs
      refine ⟨1, fun fuel hfuel => ⟨mem, ?_, ?_, fun i j _ hj => by omega⟩⟩
      · obtain ⟨fuel, rfl⟩ : ∃ n, fuel = n + 1 := ⟨fuel - 1, by omega⟩
        exact (@sort_empty _ _ fuel hnum hpos).1 hs fuel
      · exact List.Perm.refl _
  · rename_i hnum
    have h : Fits p := ⟨hpos, hbound, Nat.pos_of_ne_zero hnum, hswaps⟩
    constructor
    · rintro ⟨enough, hgood⟩
      obtain ⟨mem', heq, -⟩ := hgood (max enough (2 * p.num + 2)) (le_max_left _ _)
      by_contra hs
      rw [(sort_nonempty h hcmp (by omega)).2 hs] at heq
      cases heq
    · intro hs
      exact ⟨2 * p.num + 2, fun fuel hfuel => (sort_nonempty h hcmp (by omega)).1 hs⟩

/-- Compare values of one byte. -/
def byteCmp (a b : List UInt8) : ℤ := (a.headD 0).toNat - (b.headD 0).toNat

/-- Bytes compare. -/
theorem byteCmp_compares {p : SortCall} (h : p.cmpFunc = byteCmp) (mem : Bytes) : Compares p mem where
  sign i _ j _ := by
    rw [h, byteCmp, byteCmp]
    omega
  trans i _ j _ k _ hij hjk := by
    rw [h, byteCmp] at hij hjk ⊢
    omega

/-- An array of bytes whose greatest one comes first. -/
def greatestFirst : Bytes := fun i => [3, 1, 2].getD i 0

/-- Such an array is sorted. -/
theorem sort_greatestFirst : ∃ enough, ∀ fuel ≥ enough, ∃ mem',
    sort ⟨3, 1, byteCmp, none⟩ greatestFirst fuel = some mem' ∧
      Sorted ⟨3, 1, byteCmp, none⟩ greatestFirst mem' :=
  (sort_iff ⟨3, 1, byteCmp, none⟩ greatestFirst (by decide) (by decide) (byteCmp_compares rfl _)
    fun _ h => (by cases h)).mpr (by decide)

/-- Two bytes in order. -/
def inOrder : Bytes := fun i => [1, 2].getD i 0

/-- Sorting two bytes in order compares one of them with what lies behind the array. -/
theorem inOrder_counterexample :
    Compares ⟨2, 1, byteCmp, none⟩ inOrder ∧ ¬ ∃ enough, ∀ fuel ≥ enough, ∃ mem',
      sort ⟨2, 1, byteCmp, none⟩ inOrder fuel = some mem' ∧
        Sorted ⟨2, 1, byteCmp, none⟩ inOrder mem' := by
  have hcmp : Compares ⟨2, 1, byteCmp, none⟩ inOrder := byteCmp_compares rfl _
  have h : Fits ⟨2, 1, byteCmp, none⟩ :=
    ⟨by decide, by decide, by decide, genericSwap_exchanges (by decide)⟩
  refine ⟨hcmp, ?_⟩
  rintro ⟨enough, hgood⟩
  obtain ⟨mem', heq, -⟩ := hgood (max enough 6) (le_max_left _ _)
  have hfuel : 2 * 2 + 1 < max enough 6 := by omega
  rw [(sort_nonempty h hcmp hfuel).2 (by decide)] at heq
  cases heq

end BiscuitOS.SortOrder
