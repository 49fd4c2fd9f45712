import BiscuitOS.HeapOrder
import BiscuitOS.SortModel

/-!
# Heaps of elements in memory

The offsets of `sort` are those of whole elements, and its inner loops let an
element sink in the heap. While the heap is built, the test of the inner loop
looks at a variable that does not change: an element that comes to rest at a
place without children is compared with what lies behind the array.
-/

namespace BiscuitOS.SortHeap

open MachineWord HeapOrder SortModel

/-- `cmp_func` does not find the first value greater. -/
def leOf (p : SortCall) (a b : List UInt8) : Prop := 0 ≤ p.cmpFunc b a

instance (p : SortCall) : DecidableRel (leOf p) := fun _ _ => inferInstanceAs (Decidable (_ ≤ _))

/-- The elements of the array. -/
def Holds (p : SortCall) (mem : Bytes) (f : ℕ → List UInt8) : Prop :=
  ∀ i < p.num, element mem p.size (i * p.size) = f i

/-- A function exchanges two values that do not overlap, and changes nothing else. -/
def Exchanges (swapper : Bytes → ℕ → ℕ → ℤ → Bytes) (size : ℕ) : Prop :=
  ∀ mem a b, a + size ≤ b ∨ b + size ≤ a → ∀ i,
    swapper mem a b size i = if a ≤ i ∧ i < a + size then mem (b + (i - a))
      else if b ≤ i ∧ i < b + size then mem (a + (i - b)) else mem i

/-- Sizes and lengths fit an `int`, and the function that swaps does so. -/
structure Fits (p : SortCall) : Prop where
  /-- Elements are not empty. -/
  pos : 0 < p.size
  /-- The array fits. -/
  bound : p.num * p.size < 2 ^ 31
  /-- There is an element. -/
  nonempty : 0 < p.num
  /-- The function that swaps. -/
  swaps : Exchanges p.swapper p.size

/-- Storing a value of a length. -/
theorem putElement_element (mem src : Bytes) (o a size i : ℕ) :
    putElement mem o (element src size a) i =
      if o ≤ i ∧ i < o + size then src (a + (i - o)) else mem i := by
  have hlen : (element src size a).length = size := by rw [element, List.length_map, List.length_range]
  rw [putElement, hlen]
  split
  · rename_i h
    have hi : i - o < size := by omega
    rw [List.getD_eq_getElem?_getD, element, List.getElem?_map, List.getElem?_range hi]
    rfl
  · rfl

/-- `u32_swap` exchanges values of four bytes. -/
theorem u32Swap_exchanges : Exchanges u32Swap 4 := by
  intro mem a b hab i
  rw [u32Swap, putElement_element, putElement_element]
  by_cases hb : b ≤ i ∧ i < b + 4
  · rw [if_pos hb, if_neg (by omega), if_pos hb]
  · rw [if_neg hb, if_neg hb]

/-- The rounds of `generic_swap` exchange byte after byte. -/
theorem genericSwapLoop_exchanges (mem : Bytes) (a b n : ℕ) (hab : a + n ≤ b ∨ b + n ≤ a) (i : ℕ) :
    genericSwapLoop mem a b n i = if a ≤ i ∧ i < a + n then mem (b + (i - a))
      else if b ≤ i ∧ i < b + n then mem (a + (i - b)) else mem i := by
  induction n generalizing mem a b with
  | zero => rw [genericSwapLoop, if_neg (by omega), if_neg (by omega)]
  | succ n ih =>
    have hstep : ∀ j, Function.update (Function.update mem a (mem b)) b (mem a) j =
        if j = b then mem a else if j = a then mem b else mem j := fun j => by
      rw [Function.update_apply, Function.update_apply]
    rw [genericSwapLoop, ih _ _ _ (by omega)]
    by_cases ha : a ≤ i ∧ i < a + (n + 1)
    · rw [if_pos ha]
      by_cases hfirst : i = a
      · rw [if_neg (by omega), if_neg (by omega), hstep, if_neg (by omega), if_pos hfirst, hfirst,
          Nat.sub_self, Nat.add_zero]
      · have hshift : b + 1 + (i - (a + 1)) = b + (i - a) := by omega
        rw [if_pos (by omega), hstep, if_neg (by omega), if_neg (by omega), hshift]
    · rw [if_neg ha, if_neg (by omega)]
      by_cases hb : b ≤ i ∧ i < b + (n + 1)
      · rw [if_pos hb]
        by_cases hfirst : i = b
        · rw [if_neg (by omega), hstep, if_pos hfirst, hfirst, Nat.sub_self, Nat.add_zero]
        · have hshift : a + 1 + (i - (b + 1)) = a + (i - b) := by omega
          rw [if_pos (by omega), hstep, if_neg (by omega), if_neg (by omega), hshift]
      · rw [if_neg hb, if_neg (by omega), hstep, if_neg (by omega), if_neg (by omega)]

/-- `generic_swap` exchanges values of any length. -/
theorem genericSwap_exchanges {size : ℕ} (hsize : 0 < size) : Exchanges genericSwap size := by
  intro mem a b hab i
  have hmax : max 1 ((size : ℤ)).toNat = size := by
    rw [Int.toNat_natCast]
    omega
  rw [genericSwap, hmax]
  exact genericSwapLoop_exchanges mem a b size hab i

variable {p : SortCall} {mem : Bytes} {f : ℕ → List UInt8} {m r c fuel : ℕ} {go : ℤ → Bool}

/-- A number that fits is its own `int` and `size_t`. -/
theorem toInt_of_lt {x : ℕ} (h : x < 2 ^ 31) : toInt x = x := toSigned_of_lt (by decide) h

/-- A number that fits as a `size_t`. -/
theorem toSize_of_lt {x : ℕ} (h : x < 2 ^ 31) : toSize x = x := by
  have hx : ((x : ℤ) % 2 ^ 64) = x := Int.emod_eq_of_lt (by omega) (by omega)
  rw [toSize, toUnsigned, hx, Int.toNat_natCast]

/-- A number with the sign bit as an `int`. -/
theorem toInt_of_ge {x : ℕ} (h : 2 ^ 31 ≤ x) (hx : x < 2 ^ 32) : toInt x = x - 2 ^ 32 := by
  have hmod : (x : ℤ) % ((2 ^ 32 : ℕ) : ℤ) = x := Int.emod_eq_of_lt (by omega) (by omega)
  rw [toInt, toSigned, Int.bmod, hmod, if_neg (by omega)]
  norm_num

/-- A number with the sign bit as an `int` and then as a `size_t`. -/
theorem toSize_of_ge {x : ℕ} (h : 2 ^ 31 ≤ x) (hx : x < 2 ^ 32) :
    toSize (toInt x) = 2 ^ 64 - 2 ^ 32 + x := by
  have hmod : ((x : ℤ) - 2 ^ 32) % 2 ^ 64 = ((2 ^ 64 - 2 ^ 32 + x : ℕ) : ℤ) := by
    rw [← Int.add_emod_right, Int.emod_eq_of_lt (by omega) (by omega)]
    omega
  rw [toInt_of_ge h hx, toSize, toUnsigned, hmod, Int.toNat_natCast]

/-- A negative `int` is a large `size_t`. -/
theorem toSize_of_neg {x : ℤ} (h : toInt x < 0) : 2 ^ 63 ≤ toSize (toInt x) := by
  have hlow : -((2 ^ 32 : ℕ) / 2 : ℤ) ≤ toInt x := Int.le_bmod (by decide)
  have hmod : toInt x % 2 ^ 64 = toInt x + 2 ^ 64 := by
    rw [← Int.add_emod_right, Int.emod_eq_of_lt (by omega) (by omega)]
  rw [toSize, toUnsigned, hmod]
  omega

/-- The low bits of a large `size_t` as an `int`. -/
theorem toInt_add {x : ℕ} : toInt ((2 ^ 64 - 2 ^ 32 + x : ℕ) : ℤ) = toInt x := by
  have hshift : ((2 ^ 64 - 2 ^ 32 + x : ℕ) : ℤ) = x + ((2 ^ 32 : ℕ) : ℤ) * (2 ^ 32 - 1 : ℤ) := by
    norm_num
    omega
  rw [toInt, toInt, toSigned, toSigned, hshift, Int.add_mul_bmod_self_left]

/-- The offset of the first child before it is an `int`: beyond the range of offsets it is negative
as an `int` and large as a `size_t`. -/
theorem child_word {x s : ℕ} (hx : x + s < 2 ^ 31) :
    (2 * x + s < 2 ^ 31 ∧ wrap 64 (toSize (toInt ((x : ℤ) * 2)) + s) = 2 * x + s) ∨
      (2 ^ 31 ≤ 2 * x + s ∧ 2 ^ 31 ≤ wrap 64 (toSize (toInt ((x : ℤ) * 2)) + s) ∧
        toInt (wrap 64 (toSize (toInt ((x : ℤ) * 2)) + s) : ℕ) < 0) := by
  have hcast : (x : ℤ) * 2 = ((2 * x : ℕ) : ℤ) := by
    push_cast
    ring
  rw [hcast]
  by_cases hlow : 2 * x < 2 ^ 31
  · rw [toInt_of_lt hlow, toSize_of_lt hlow, wrap_of_lt (by omega)]
    by_cases hsum : 2 * x + s < 2 ^ 31
    · exact Or.inl ⟨hsum, rfl⟩
    · rw [toInt_of_ge (by omega) (by omega)]
      exact Or.inr ⟨by omega, by omega, by omega⟩
  · rw [toSize_of_ge (by omega) (by omega), wrap_of_lt (by omega)]
    have hsum : 2 ^ 64 - 2 ^ 32 + 2 * x + s = 2 ^ 64 - 2 ^ 32 + (2 * x + s) := by omega
    rw [hsum, toInt_add, toInt_of_ge (by omega) (by omega)]
    exact Or.inr ⟨by omega, by omega, by omega⟩

/-- The end of the array is not truncated. -/
theorem Fits.stop_eq (h : Fits p) : p.stop = (p.num * p.size : ℕ) := by
  have hbound := h.bound
  rw [SortCall.stop, wrap_of_lt (by omega), toInt_of_lt hbound]

/-- Elements of the array end within it. -/
theorem Fits.place_lt (h : Fits p) {i n : ℕ} (hi : i < n) (hn : n ≤ p.num) :
    i * p.size + p.size ≤ n * p.size ∧ n * p.size ≤ p.num * p.size ∧ p.num * p.size < 2 ^ 31 := by
  have hstep : (i + 1) * p.size ≤ n * p.size := Nat.mul_le_mul_right _ hi
  rw [Nat.succ_mul] at hstep
  exact ⟨hstep, Nat.mul_le_mul_right _ hn, h.bound⟩

/-- The offsets of elements are inside. -/
theorem Fits.inside (h : Fits p) {i : ℕ} (hi : i < p.num) : p.inside (i * p.size : ℕ) = true := by
  have hle := (h.place_lt hi le_rfl).1
  rw [SortCall.inside, Bool.and_eq_true, decide_eq_true_eq, decide_eq_true_eq]
  exact ⟨Int.natCast_nonneg _, by exact_mod_cast hle⟩

/-- A comparison of two elements. -/
theorem Fits.compare_eq (h : Fits p) (hh : Holds p mem f) (hr : r < p.num) (hc : c < p.num) :
    compare p mem (r * p.size : ℕ) (c * p.size : ℕ) = some (p.cmpFunc (f r) (f c)) := by
  rw [SortModel.compare, h.inside hr, h.inside hc, Int.toNat_natCast, Int.toNat_natCast, hh r hr,
    hh c hc]
  rfl

/-- Offsets of different elements do not overlap. -/
theorem places_apart {s : ℕ} (hrc : r ≠ c) : r * s + s ≤ c * s ∨ c * s + s ≤ r * s := by
  rcases Nat.lt_or_gt_of_ne hrc with hlt | hlt
  · have hle : (r + 1) * s ≤ c * s := Nat.mul_le_mul_right _ hlt
    rw [Nat.succ_mul] at hle
    exact Or.inl hle
  · have hle : (c + 1) * s ≤ r * s := Nat.mul_le_mul_right _ hlt
    rw [Nat.succ_mul] at hle
    exact Or.inr hle

/-- An exchange of two elements. -/
theorem Fits.exchange_eq (h : Fits p) (hh : Holds p mem f) (hr : r < p.num) (hc : c < p.num)
    (hrc : r ≠ c) :
    ∃ mem', exchange p mem (r * p.size : ℕ) (c * p.size : ℕ) = some mem' ∧
      Holds p mem' (swap f r c) := by
  have hsize : toInt p.size = p.size := by
    have hle := (h.place_lt hr le_rfl).1
    have hbound := h.bound
    exact toInt_of_lt (by omega)
  have hapart := places_apart (s := p.size) hrc
  refine ⟨p.swapper mem (r * p.size) (c * p.size) p.size, ?_, fun i hi => ?_⟩
  · rw [exchange, h.inside hr, h.inside hc, Int.toNat_natCast, Int.toNat_natCast, hsize]
    rfl
  · have hvalue := h.swaps mem _ _ hapart
    have hpart : ∀ j < p.num, (∀ k < p.size, p.swapper mem (r * p.size) (c * p.size) p.size
        (i * p.size + k) = mem (j * p.size + k)) →
        element (p.swapper mem (r * p.size) (c * p.size) p.size) p.size (i * p.size) = f j := by
      intro j hj hsame
      rw [← hh j hj]
      exact List.map_congr_left fun k hk => hsame k (List.mem_range.mp hk)
    by_cases hir : i = r
    · subst hir
      rw [swap_left]
      refine hpart c hc fun k hk => ?_
      rw [hvalue, if_pos (by omega), Nat.add_sub_cancel_left]
    · by_cases hic : i = c
      · subst hic
        rw [swap_right]
        refine hpart r hr fun k hk => ?_
        rw [hvalue, if_neg (by omega), if_pos (by omega), Nat.add_sub_cancel_left]
      · rw [swap_other hir hic]
        have hr' := places_apart (s := p.size) hir
        have hc' := places_apart (s := p.size) hic
        refine hpart i hi fun k hk => ?_
        rw [hvalue, if_neg (by omega), if_neg (by omega)]

/-- The place of the first child in bytes. -/
theorem child_place (r s : ℕ) : 2 * (r * s) + s = (2 * r + 1) * s := by ring

/-- The test of the inner loops. -/
theorem Fits.below_eq (h : Fits p) {b : ℕ} (hr : r < p.num) (hb : b ≤ p.num) :
    below p (r * p.size : ℕ) (b * p.size : ℕ) = decide (2 * r + 1 < b) := by
  have hplace := h.place_lt hr le_rfl
  have hbound : b * p.size ≤ p.num * p.size := Nat.mul_le_mul_right _ hb
  have hiff : 2 * (r * p.size) + p.size < b * p.size ↔ 2 * r + 1 < b := by
    rw [child_place]
    exact Nat.mul_lt_mul_right h.pos
  rw [below, toSize_of_lt (x := b * p.size) (by omega)]
  refine decide_eq_decide.mpr ?_
  rw [← hiff]
  rcases child_word (x := r * p.size) (s := p.size) (by omega) with ⟨-, hw⟩ | ⟨hge, hw, -⟩
  · rw [hw]
  · omega

/-- The offset of the first child, when it is in the array. -/
theorem Fits.childOf_eq (h : Fits p) (hr : 2 * r + 1 < p.num) :
    childOf p (r * p.size : ℕ) = ((2 * r + 1) * p.size : ℕ) := by
  have hplace := h.place_lt (show r < p.num by omega) le_rfl
  have hchild := h.place_lt hr le_rfl
  have heq := child_place r p.size
  rcases child_word (x := r * p.size) (s := p.size) (by omega) with ⟨hlt, hw⟩ | ⟨hge, -, -⟩
  · rw [childOf, hw, toInt_of_lt hlt, heq]
  · omega

/-- The offset of the first child, when it is not in the array: no element lies there, and the
second child is not looked at. -/
theorem Fits.childOf_outside (h : Fits p) (hr : r < p.num) (hout : p.num ≤ 2 * r + 1) :
    p.inside (childOf p (r * p.size : ℕ)) = false ∧
      ¬ toSize (childOf p (r * p.size : ℕ)) < wrapSub 64 (toSize p.stop) p.size := by
  have hplace := h.place_lt hr le_rfl
  have hsome : p.size ≤ p.num * p.size := Nat.le_mul_of_pos_left _ h.nonempty
  have hchild : p.num * p.size ≤ (2 * r + 1) * p.size := Nat.mul_le_mul_right _ hout
  have heq := child_place r p.size
  have hpos := h.pos
  have hstop : wrapSub 64 (toSize p.stop) p.size = p.num * p.size - p.size := by
    rw [h.stop_eq, toSize_of_lt h.bound]
    exact wrapSub_of_le (by omega) hsome
  rw [hstop, childOf]
  rcases child_word (x := r * p.size) (s := p.size) (by omega) with ⟨hlt, hw⟩ | ⟨hge, -, hneg⟩
  · rw [hw, toInt_of_lt hlt, toSize_of_lt hlt, SortCall.inside, Bool.and_eq_false_iff,
      decide_eq_false_iff_not, decide_eq_false_iff_not]
    have hover : ¬ ((2 * (r * p.size) + p.size : ℕ) : ℤ) + p.size ≤ p.num * p.size := by
      have : p.num * p.size < 2 * (r * p.size) + p.size + p.size := by omega
      exact_mod_cast not_le.mpr this
    exact ⟨Or.inr hover, by omega⟩
  · rw [SortCall.inside, Bool.and_eq_false_iff, decide_eq_false_iff_not, decide_eq_false_iff_not]
    have hlarge := toSize_of_neg hneg
    exact ⟨Or.inl (by omega), by omega⟩

/-- The choice of the greater child. -/
theorem Fits.choose_eq (h : Fits p) (hh : Holds p mem f) (hm : m ≤ p.num) (hr : 2 * r + 1 < m) :
    (if toSize ((2 * r + 1) * p.size : ℕ) < wrapSub 64 (toSize (m * p.size : ℕ)) p.size then
      (SortModel.compare p mem ((2 * r + 1) * p.size : ℕ)
        (((2 * r + 1) * p.size : ℕ) + p.size)).map fun v =>
          if v < 0 then toInt (wrap 64 (toSize ((2 * r + 1) * p.size : ℕ) + p.size))
          else ((2 * r + 1) * p.size : ℕ)
      else some (((2 * r + 1) * p.size : ℕ) : ℤ)) =
      some ((greaterChild (leOf p) f m r * p.size : ℕ) : ℤ) := by
  have hpos := h.pos
  have hplace := h.place_lt hr hm
  have hsome : p.size ≤ m * p.size := Nat.le_mul_of_pos_left _ (by omega)
  have hnext : (2 * r + 1) * p.size + p.size = (2 * r + 2) * p.size := by ring
  have hcast : ((2 * r + 1) * p.size : ℕ) + (p.size : ℤ) = ((2 * r + 2) * p.size : ℕ) := by
    rw [← hnext, Nat.cast_add]
  have hiff : (2 * r + 1) * p.size < m * p.size - p.size ↔ 2 * r + 2 < m := by
    have hmul : (2 * r + 2) * p.size < m * p.size ↔ 2 * r + 2 < m := Nat.mul_lt_mul_right hpos
    rw [← hmul, ← hnext]
    omega
  rw [toSize_of_lt (x := m * p.size) (by omega), toSize_of_lt (x := (2 * r + 1) * p.size) (by omega),
    wrapSub_of_le (by omega) hsome, hcast]
  by_cases htwo : 2 * r + 2 < m
  · have hlast := h.place_lt htwo hm
    have hleft : 2 * r + 1 < p.num := by omega
    have hright : 2 * r + 2 < p.num := by omega
    rw [if_pos (hiff.mpr htwo), h.compare_eq hh hleft hright, Option.map_some, hnext,
      wrap_of_lt (by omega), toInt_of_lt (by omega), greaterChild]
    by_cases hless : p.cmpFunc (f (2 * r + 1)) (f (2 * r + 2)) < 0
    · rw [if_pos hless, if_pos ⟨htwo, not_le.mpr hless⟩]
    · rw [if_neg hless, if_neg fun hc => hc.2 (not_lt.mp hless)]
  · rw [if_neg fun hc => htwo (hiff.mp hc), greaterChild, if_neg fun hc => htwo hc.1]

/-- A round of the inner loops at a place that has a child: the element stays, or the loop goes on
at the greater child after an exchange. -/
theorem Fits.round (h : Fits p) (hh : Holds p mem f) (hm : m ≤ p.num) (hr : 2 * r + 1 < m)
    (hgo : go (r * p.size : ℕ) = true) :
    (leOf p (f (greaterChild (leOf p) f m r)) (f r) →
      siftDown p mem go (m * p.size : ℕ) (r * p.size : ℕ) (fuel + 1) = some mem) ∧
    (¬ leOf p (f (greaterChild (leOf p) f m r)) (f r) → ∃ mem',
      siftDown p mem go (m * p.size : ℕ) (r * p.size : ℕ) (fuel + 1) =
        siftDown p mem' go (m * p.size : ℕ) (greaterChild (leOf p) f m r * p.size : ℕ) fuel ∧
      Holds p mem' (swap f r (greaterChild (leOf p) f m r))) := by
  obtain ⟨hchild, hcm⟩ := greaterChild_spec (leOf p) f hr
  have hcompare := h.compare_eq hh (show r < p.num by omega) (hcm.trans_le hm)
  have hne : r ≠ greaterChild (leOf p) f m r := by
    rw [IsChild] at hchild
    omega
  obtain ⟨mem', hexchange, hh'⟩ := h.exchange_eq hh (show r < p.num by omega) (hcm.trans_le hm) hne
  rw [siftDown, if_pos hgo]
  dsimp only
  rw [h.childOf_eq (show 2 * r + 1 < p.num by omega), h.choose_eq hh hm hr, Option.bind_some,
    hcompare, Option.bind_some]
  constructor
  · intro hle
    exact if_pos hle
  · intro hle
    have hless : ¬ 0 ≤ p.cmpFunc (f r) (f (greaterChild (leOf p) f m r)) := hle
    refine ⟨mem', ?_, hh'⟩
    rw [if_neg hless, hexchange, Option.bind_some]

/-- The inner loop of the second phase lets the element sink. -/
theorem Fits.siftDown_sink (h : Fits p) (hh : Holds p mem f) (hm : m ≤ p.num) (hr : r < p.num)
    (hfuel : m ≤ r + fuel) (hpos : 0 < fuel) :
    ∃ mem', siftDown p mem (fun r => below p r (m * p.size : ℕ)) (m * p.size : ℕ) (r * p.size : ℕ)
      fuel = some mem' ∧ Holds p mem' (sink (leOf p) f m r fuel).1 := by
  induction fuel generalizing f mem r with
  | zero => exact absurd hpos (Nat.lt_irrefl _)
  | succ fuel ih =>
    have hgo := h.below_eq hr hm
    rw [sink]
    by_cases hc : 2 * r + 1 < m
    · obtain ⟨hchild, hcm⟩ := greaterChild_spec (leOf p) f hc
      have hrc : r < greaterChild (leOf p) f m r := by
        rw [IsChild] at hchild
        omega
      obtain ⟨hstay, hgoes⟩ := @Fits.round _ _ _ _ _ fuel (fun r => below p r (m * p.size : ℕ)) h hh
        hm hc (hgo.trans (decide_eq_true hc))
      rw [if_pos hc]
      by_cases hle : leOf p (f (greaterChild (leOf p) f m r)) (f r)
      · rw [if_pos hle]
        exact ⟨mem, hstay hle, hh⟩
      · rw [if_neg hle]
        obtain ⟨mem', heq, hh'⟩ := hgoes hle
        rw [heq]
        exact ih hh' (by omega) (by omega) (by omega)
    · rw [if_neg hc, siftDown, hgo, decide_eq_false hc]
      exact ⟨mem, rfl, hh⟩

/-- The inner loop of the first phase lets the element sink, and comes back unless the element comes
to rest at a place without children. -/
theorem Fits.siftDown_build (h : Fits p) (hh : Holds p mem f) (hr : r < p.num)
    (hgo : ∀ x, go x = true) (hfuel : p.num < r + fuel) :
    (2 * (sink (leOf p) f p.num r fuel).2 + 1 < p.num → ∃ mem',
      siftDown p mem go p.stop (r * p.size : ℕ) fuel = some mem' ∧
        Holds p mem' (sink (leOf p) f p.num r fuel).1) ∧
    (¬ 2 * (sink (leOf p) f p.num r fuel).2 + 1 < p.num →
      siftDown p mem go p.stop (r * p.size : ℕ) fuel = none) := by
  have hstop := h.stop_eq
  induction fuel generalizing f mem r with
  | zero => omega
  | succ fuel ih =>
    rw [sink]
    by_cases hc : 2 * r + 1 < p.num
    · obtain ⟨hchild, hcm⟩ := greaterChild_spec (leOf p) f hc
      have hrc : r < greaterChild (leOf p) f p.num r := by
        rw [IsChild] at hchild
        omega
      obtain ⟨hstay, hgoes⟩ := @Fits.round _ _ _ _ _ fuel go h hh le_rfl hc (hgo _)
      rw [if_pos hc, hstop]
      by_cases hle : leOf p (f (greaterChild (leOf p) f p.num r)) (f r)
      · rw [if_pos hle]
        exact ⟨fun _ => ⟨mem, hstay hle, hh⟩, fun hn => absurd hc hn⟩
      · rw [if_neg hle]
        obtain ⟨mem', heq, hh'⟩ := hgoes hle
        rw [heq, ← hstop]
        exact ih hh' hcm (by omega)
    · obtain ⟨hout, hsecond⟩ := h.childOf_outside hr (not_lt.mp hc)
      rw [if_neg hc, siftDown, if_pos (hgo _)]
      dsimp only
      rw [if_neg hsecond, Option.bind_some, SortModel.compare, hout, Bool.and_false]
      exact ⟨fun hin => absurd hin hc, fun _ => rfl⟩

/-- The counter of the outer loops goes down by one element. -/
theorem Fits.lower_eq (h : Fits p) {i : ℕ} (hi : i < p.num) :
    lower p (((i + 1) * p.size : ℕ) : ℤ) = (i * p.size : ℕ) ∧ lower p ((0 * p.size : ℕ) : ℤ) < 0 := by
  have hplace := h.place_lt hi le_rfl
  have hsize := h.place_lt h.nonempty le_rfl
  have hpos := h.pos
  have hnext : (i + 1) * p.size = i * p.size + p.size := Nat.succ_mul _ _
  constructor
  · rw [lower, hnext, toSize_of_lt (by omega), wrapSub_of_le (by omega) (by omega),
      Nat.add_sub_cancel, toInt_of_lt (by omega)]
  · have hzero : wrapSub 64 0 p.size = 2 ^ 64 - 2 ^ 32 + (2 ^ 32 - p.size) := by
      rw [wrapSub]
      omega
    rw [lower, Nat.zero_mul, toSize_of_lt (by decide), hzero, toInt_add, toInt_of_ge (by omega) (by omega)]
    omega

end BiscuitOS.SortHeap
