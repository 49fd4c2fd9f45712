import BiscuitOS.MachineWord
import BiscuitOS.BuddyModel

/-!
# The watermark check

`zone_watermark_ok` of `mm/page_alloc.c`, with `zone_page_state` as the counter
it reads. A negative number of free pages is compared with an `unsigned long`
first, where it is larger than any mark. The rounds for the orders below that
of the request catch this, but a request of order zero has no such round.
-/

namespace BiscuitOS.ZoneWatermark

open MachineWord BuddyModel

/-- `ALLOC_HARDER`. -/
def allocHarder : ℕ := 0x10

/-- `ALLOC_HIGH`. -/
def allocHigh : ℕ := 0x20

/-- What the check reads of `struct zone`. -/
structure Watched where
  /-- The counter of `NR_FREE_PAGES`. -/
  freePages : ℕ
  /-- `lowmem_reserve`. -/
  lowmemReserve : ℕ → ℕ
  /-- `nr_free` of each `free_area`. -/
  nrFree : ℕ → ℕ
  /-- The counter fits a `long`. -/
  counted : freePages < 2 ^ 63
  /-- So do the reserves. -/
  reserved : ∀ i, lowmemReserve i < 2 ^ 63
  /-- So do the pages of the free blocks, with room for a request. -/
  listed : ∑ o ∈ Finset.range maxOrder, nrFree o * 2 ^ o < 2 ^ 62

/-- The loop of `__zone_watermark_ok`: the rounds left, `o`, `free_pages` and `min`. -/
def checkOrders (nrFree : ℕ → ℕ) : ℕ → ℕ → ℤ → ℤ → Bool
  | 0, _, _, _ => true
  | left + 1, o, free, min =>
    let free := toSigned 64 (free - wrap 64 (nrFree o <<< o))
    let min := min >>> (1 : ℕ)
    if free ≤ min then false else checkOrders nrFree left (o + 1) free min

/-- `__zone_watermark_ok`. -/
def zoneWatermarkOkFrom (z : Watched) (order mark classzoneIdx allocFlags : ℕ) (free : ℤ) : Bool :=
  let min := toSigned 64 mark
  let free := toSigned 64 (free - ((1 <<< order : ℕ) + 1))
  let min := if allocFlags &&& allocHigh ≠ 0 then min - min.tdiv 2 else min
  let min := if allocFlags &&& allocHarder ≠ 0 then min - min.tdiv 4 else min
  if toUnsigned 64 free ≤ wrap 64 (toUnsigned 64 min + z.lowmemReserve classzoneIdx) then false
  else checkOrders z.nrFree order 0 free min

/-- `zone_watermark_ok`. -/
def zoneWatermarkOk (z : Watched) (order mark classzoneIdx allocFlags : ℕ) : Bool :=
  zoneWatermarkOkFrom z order mark classzoneIdx allocFlags (toSigned 64 z.freePages)

/-- The mark after its reductions. -/
def reducedMark (mark allocFlags : ℕ) : ℕ :=
  let m := if allocFlags &&& allocHigh ≠ 0 then mark - mark / 2 else mark
  if allocFlags &&& allocHarder ≠ 0 then m - m / 4 else m

/-- The free pages that a request leaves. -/
def left (z : Watched) (order : ℕ) : ℤ := z.freePages - 2 ^ order - 1

/-- The pages in free blocks below an order. -/
def pagesBelow (z : Watched) (o : ℕ) : ℕ := ∑ i ∈ Finset.range o, z.nrFree i * 2 ^ i

/-- A request leaves a zone above its marks. -/
structure Above (z : Watched) (order mark classzoneIdx allocFlags : ℕ) : Prop where
  /-- The free pages are above the mark and the reserve. -/
  total : ((reducedMark mark allocFlags + z.lowmemReserve classzoneIdx : ℕ) : ℤ) < left z order
  /-- Those of higher orders are above their share of the mark. -/
  orders : ∀ o < order,
    ((reducedMark mark allocFlags / 2 ^ (o + 1) : ℕ) : ℤ) < left z order - pagesBelow z (o + 1)

/-- The check does for some input what it is for. -/
structure Checked (z : Watched) (order mark classzoneIdx allocFlags : ℕ) : Prop where
  /-- It tells whether the zone stays above its marks. -/
  result : zoneWatermarkOk z order mark classzoneIdx allocFlags = true ↔
    Above z order mark classzoneIdx allocFlags
  /-- It refuses a request that the free pages do not cover. -/
  exhausted : z.freePages < 2 ^ order →
    zoneWatermarkOk z order mark classzoneIdx allocFlags = false
  /-- With more free pages it still passes. -/
  monotone : ∀ z' : Watched, z'.nrFree = z.nrFree → z'.lowmemReserve = z.lowmemReserve →
    z.freePages ≤ z'.freePages → zoneWatermarkOk z order mark classzoneIdx allocFlags = true →
    zoneWatermarkOk z' order mark classzoneIdx allocFlags = true
  /-- It passes if it does for a higher mark. -/
  antitone : ∀ mark', mark ≤ mark' → mark' < 2 ^ 63 →
    zoneWatermarkOk z order mark' classzoneIdx allocFlags = true →
    zoneWatermarkOk z order mark classzoneIdx allocFlags = true

variable {z z' : Watched} {order mark mark' classzoneIdx allocFlags k o : ℕ} {free min : ℤ}

/-- A block count of the zone fits a word. -/
theorem blocks_fit (z : Watched) (ho : o < maxOrder) :
    wrap 64 (z.nrFree o <<< o) = z.nrFree o * 2 ^ o := by
  have hle := Finset.single_le_sum (f := fun o => z.nrFree o * 2 ^ o) (fun _ _ => Nat.zero_le _)
    (Finset.mem_range.mpr ho)
  have hfits := z.listed
  rw [Nat.shiftLeft_eq]
  exact wrap_of_lt (by omega)

/-- A number that fits a `long` is its own signed value. -/
theorem toSigned_fits (hlow : -2 ^ 63 ≤ free) (hhigh : free < 2 ^ 63) : toSigned 64 free = free := by
  rw [toSigned]
  exact Int.bmod_eq_of_le (by omega) (by omega)

/-- The pages in free blocks from an order on, the first order apart. -/
theorem pages_succ (z : Watched) (o n : ℕ) :
    ∑ i ∈ Finset.range (n + 1), z.nrFree (o + i) * 2 ^ (o + i) =
      ∑ i ∈ Finset.range n, z.nrFree (o + 1 + i) * 2 ^ (o + 1 + i) + z.nrFree o * 2 ^ o := by
  rw [Finset.sum_range_succ', Nat.add_zero]
  congr 1
  exact Finset.sum_congr rfl fun i _ => by rw [Nat.add_assoc, Nat.add_comm 1 i]

/-- The rounds of the loop, by the pages of the orders they pass. -/
theorem checkOrders_iff (z : Watched) (k o : ℕ) (free min : ℤ) (ho : o + k ≤ maxOrder)
    (hhigh : free < 2 ^ 63)
    (hlow : -2 ^ 63 ≤ free - (∑ i ∈ Finset.range k, z.nrFree (o + i) * 2 ^ (o + i) : ℕ)) :
    checkOrders z.nrFree k o free min = true ↔
      ∀ j < k, min / 2 ^ (j + 1) <
        free - (∑ i ∈ Finset.range (j + 1), z.nrFree (o + i) * 2 ^ (o + i) : ℕ) := by
  induction k generalizing o free min with
  | zero =>
    rw [checkOrders]
    exact ⟨fun _ j hj => absurd hj (Nat.not_lt_zero j), fun _ => rfl⟩
  | succ k ih =>
    rw [pages_succ] at hlow
    have hfree : toSigned 64 (free - wrap 64 (z.nrFree o <<< o)) =
        free - (z.nrFree o * 2 ^ o : ℕ) := by
      rw [blocks_fit z (by omega)]
      exact toSigned_fits (by omega) (by omega)
    have hnext := ih (o + 1) (free - (z.nrFree o * 2 ^ o : ℕ)) (min / 2) (by omega) (by omega)
      (by omega)
    have hhalf : ∀ j, min / 2 / 2 ^ (j + 1) = min / 2 ^ (j + 1 + 1) := fun j => by
      rw [Int.ediv_ediv_of_nonneg (by decide), ← pow_succ']
    have hfirst : min / 2 ^ (0 + 1) = min / 2 := rfl
    have hshift : min >>> (1 : ℕ) = min / 2 := Int.shiftRight_eq_div_pow min 1
    rw [checkOrders, hfree, hshift]
    by_cases hle : free - (z.nrFree o * 2 ^ o : ℕ) ≤ min / 2
    · rw [if_pos hle]
      refine ⟨fun h => Bool.noConfusion h, fun h => absurd (h 0 (Nat.succ_pos k)) ?_⟩
      rw [hfirst, pages_succ, Finset.sum_range_zero, Nat.zero_add]
      exact not_lt.mpr hle
    · rw [if_neg hle, hnext]
      constructor
      · intro h j hj
        cases j with
        | zero =>
          rw [hfirst, pages_succ, Finset.sum_range_zero, Nat.zero_add]
          exact not_le.mp hle
        | succ j =>
          have := h j (Nat.lt_of_succ_lt_succ hj)
          rw [hhalf] at this
          rw [pages_succ]
          omega
      · intro h j hj
        have := h (j + 1) (Nat.succ_lt_succ hj)
        rw [pages_succ] at this
        rw [hhalf]
        omega

/-- A reduction of a mark, by the naturals. -/
theorem cut_eq (c : Prop) [Decidable c] (m d : ℕ) {e : ℤ} (he : e = d) :
    (if c then (m : ℤ) - (m : ℤ).tdiv e else m) = ((if c then m - m / d else m : ℕ) : ℤ) := by
  have hle := Nat.div_le_self m d
  rw [he, ← Int.ofNat_tdiv]
  by_cases hc : c
  · rw [if_pos hc, if_pos hc, Int.ofNat_sub hle]
  · rw [if_neg hc, if_neg hc]

/-- A reduced mark is no higher. -/
theorem reducedMark_le (mark allocFlags : ℕ) : reducedMark mark allocFlags ≤ mark := by
  rw [reducedMark]
  split_ifs <;> omega

/-- The reductions keep the order of marks. -/
theorem reducedMark_mono (allocFlags : ℕ) (h : mark ≤ mark') :
    reducedMark mark allocFlags ≤ reducedMark mark' allocFlags := by
  rw [reducedMark, reducedMark]
  split_ifs <;> omega

/-- The pages below a larger order. -/
theorem pagesBelow_mono (z : Watched) (h : k ≤ o) : pagesBelow z k ≤ pagesBelow z o :=
  Finset.sum_le_sum_of_subset (Finset.range_subset_range.mpr h)

/-- The free pages that a request leaves fit a `long`. -/
theorem left_eq (z : Watched) (horder : order < maxOrder) :
    left z order = z.freePages - (2 ^ order : ℕ) - 1 ∧ -2049 ≤ left z order ∧
      left z order < 2 ^ 63 := by
  have hcounted := z.counted
  have hpow : (2 : ℕ) ^ order ≤ 2048 := by
    have hmax : 2048 = 2 ^ maxOrder := by decide
    rw [hmax]
    exact Nat.pow_le_pow_right (by decide) horder.le
  have heq : left z order = z.freePages - (2 ^ order : ℕ) - 1 := by
    rw [left]
    push_cast
    rfl
  generalize 2 ^ order = n at heq hpow
  omega

/-- What the check computes. -/
theorem zoneWatermarkOk_eq (z : Watched) (classzoneIdx allocFlags : ℕ) (horder : order < maxOrder)
    (hmark : mark < 2 ^ 63) :
    zoneWatermarkOk z order mark classzoneIdx allocFlags = true ↔
      ((reducedMark mark allocFlags + z.lowmemReserve classzoneIdx : ℕ) : ℤ) <
          toUnsigned 64 (left z order) ∧
        ∀ o < order, ((reducedMark mark allocFlags / 2 ^ (o + 1) : ℕ) : ℤ) <
          left z order - pagesBelow z (o + 1) := by
  have hreserved := z.reserved classzoneIdx
  have hreduced := (reducedMark_le mark allocFlags).trans_lt hmark
  obtain ⟨heq, hlow, hhigh⟩ := left_eq z horder
  have hbelow : pagesBelow z order < 2 ^ 62 := (pagesBelow_mono z horder.le).trans_lt z.listed
  have hlong : toSigned 64 mark = mark := toSigned_of_lt (by decide) hmark
  have hpages : toSigned 64 z.freePages = z.freePages := toSigned_of_lt (by decide) z.counted
  have hleft : toSigned 64 ((z.freePages : ℤ) - ((1 <<< order : ℕ) + 1)) = left z order := by
    have hsum : (z.freePages : ℤ) - ((1 <<< order : ℕ) + 1) = left z order := by
      rw [heq, Nat.shiftLeft_eq, Nat.one_mul]
      ring
    rw [hsum]
    exact toSigned_fits (le_trans (by decide) hlow) hhigh
  clear heq
  have hmin := (cut_eq (allocFlags &&& allocHarder ≠ 0)
    (if allocFlags &&& allocHigh ≠ 0 then mark - mark / 2 else mark) 4 (e := 4) rfl)
  rw [← cut_eq (allocFlags &&& allocHigh ≠ 0) mark 2 (e := 2) rfl] at hmin
  have hword : toUnsigned 64 (reducedMark mark allocFlags : ℤ) = reducedMark mark allocFlags := by
    have := toUnsigned_of_lt (w := 64) (x := (reducedMark mark allocFlags : ℤ))
      (Int.natCast_nonneg _) (by omega)
    exact_mod_cast this
  have hsum : wrap 64 (reducedMark mark allocFlags + z.lowmemReserve classzoneIdx) =
      reducedMark mark allocFlags + z.lowmemReserve classzoneIdx := wrap_of_lt (by omega)
  have hrounds := checkOrders_iff z order 0 (left z order) (reducedMark mark allocFlags)
    (by omega) hhigh
  simp only [Nat.zero_add] at hrounds
  rw [zoneWatermarkOk, zoneWatermarkOkFrom, hlong, hpages, hleft, hmin]
  rw [← reducedMark, hword, hsum]
  have hround : ∀ o, ((reducedMark mark allocFlags / 2 ^ (o + 1) : ℕ) : ℤ) =
      (reducedMark mark allocFlags : ℤ) / 2 ^ (o + 1) := fun o => by push_cast; rfl
  simp only [hround, pagesBelow]
  by_cases hle : toUnsigned 64 (left z order) ≤
      reducedMark mark allocFlags + z.lowmemReserve classzoneIdx
  · rw [if_pos hle]
    refine ⟨fun h => Bool.noConfusion h, fun h => absurd (Int.ofNat_lt.mp h.1) (not_lt.mpr hle)⟩
  · rw [if_neg hle, hrounds (by rw [pagesBelow] at hbelow; omega)]
    exact ⟨fun h => ⟨Int.ofNat_lt.mpr (not_le.mp hle), h⟩, fun h => h.2⟩

/-- A request of order zero with fewer than two free pages, whose negative rest is larger than the
mark when it is read as a word. -/
def Starved (z : Watched) (order mark classzoneIdx allocFlags : ℕ) : Prop :=
  order = 0 ∧ z.freePages < 2 ∧
    ((reducedMark mark allocFlags + z.lowmemReserve classzoneIdx : ℕ) : ℤ) < 2 ^ 64 + left z order

/-- A negative rest passes the check of a request of order zero only. -/
theorem zoneWatermarkOk_negative (z : Watched) (classzoneIdx allocFlags : ℕ) (horder : order < maxOrder)
    (hmark : mark < 2 ^ 63) (hneg : left z order < 0) :
    zoneWatermarkOk z order mark classzoneIdx allocFlags = true ↔
      Starved z order mark classzoneIdx allocFlags := by
  obtain ⟨heq, hlow, -⟩ := left_eq z horder
  have hword : (toUnsigned 64 (left z order) : ℤ) = 2 ^ 64 + left z order := by
    rw [toUnsigned]
    omega
  rw [zoneWatermarkOk_eq z classzoneIdx allocFlags horder hmark, hword, Starved]
  constructor
  · rintro ⟨htotal, horders⟩
    have hzero : order = 0 := by
      by_contra hne
      have := horders 0 (Nat.pos_of_ne_zero hne)
      omega
    refine ⟨hzero, ?_, htotal⟩
    rw [hzero] at heq
    rw [hzero] at hneg
    omega
  · rintro ⟨hzero, -, htotal⟩
    exact ⟨htotal, fun o ho => absurd ho (by omega)⟩

/-- With a rest that is not negative the check tells whether the zone stays above its marks. -/
theorem zoneWatermarkOk_iff_above (z : Watched) (classzoneIdx allocFlags : ℕ)
    (horder : order < maxOrder) (hmark : mark < 2 ^ 63) (hneg : 0 ≤ left z order) :
    zoneWatermarkOk z order mark classzoneIdx allocFlags = true ↔
      Above z order mark classzoneIdx allocFlags := by
  obtain ⟨-, -, hhigh⟩ := left_eq z horder
  have hword : (toUnsigned 64 (left z order) : ℤ) = left z order :=
    toUnsigned_of_lt hneg (by omega)
  rw [zoneWatermarkOk_eq z classzoneIdx allocFlags horder hmark, hword]
  exact ⟨fun ⟨h1, h2⟩ => ⟨h1, h2⟩, fun ⟨h1, h2⟩ => ⟨h1, h2⟩⟩

/-- A zone above its marks has a rest. -/
theorem Above.left_nonneg (h : Above z order mark classzoneIdx allocFlags) : 0 ≤ left z order := by
  have := h.total
  omega

/-- More free pages keep a zone above its marks. -/
theorem Above.mono (h : Above z order mark classzoneIdx allocFlags) (hfree : z'.nrFree = z.nrFree)
    (hreserve : z'.lowmemReserve = z.lowmemReserve) (hle : z.freePages ≤ z'.freePages) :
    Above z' order mark classzoneIdx allocFlags := by
  have hleft : left z order ≤ left z' order := by
    rw [left, left]
    omega
  refine ⟨?_, fun o ho => ?_⟩
  · rw [hreserve]
    exact h.total.trans_le hleft
  · have := h.orders o ho
    rw [pagesBelow, hfree, ← pagesBelow]
    omega

/-- A lower mark keeps a zone above it. -/
theorem Above.anti (h : Above z order mark' classzoneIdx allocFlags) (hle : mark ≤ mark') :
    Above z order mark classzoneIdx allocFlags := by
  have hreduced := reducedMark_mono allocFlags hle
  refine ⟨lt_of_le_of_lt ?_ h.total, fun o ho => lt_of_le_of_lt ?_ (h.orders o ho)⟩
  · exact Int.ofNat_le.mpr (Nat.add_le_add_right hreduced _)
  · exact Int.ofNat_le.mpr (Nat.div_le_div_right hreduced)

/-- The check does what it is for exactly when the request is not starved. -/
theorem zoneWatermarkOk_iff (z : Watched) (order mark classzoneIdx allocFlags : ℕ)
    (horder : order < maxOrder) (hmark : mark < 2 ^ 63) :
    Checked z order mark classzoneIdx allocFlags ↔
      ¬Starved z order mark classzoneIdx allocFlags := by
  constructor
  · intro hchecked hstarved
    have hneg : left z order < 0 := by
      obtain ⟨rfl, hfew, -⟩ := hstarved
      have := (left_eq z horder).1
      omega
    have hpass := (zoneWatermarkOk_negative z classzoneIdx allocFlags horder hmark hneg).mpr hstarved
    exact absurd (hchecked.result.mp hpass).left_nonneg (not_le.mpr hneg)
  · intro hfed
    have habove : ∀ m, mark ≤ m → m < 2 ^ 63 →
        (zoneWatermarkOk z order m classzoneIdx allocFlags = true ↔
          Above z order m classzoneIdx allocFlags) := by
      intro m hle hm
      rcases lt_or_ge (left z order) 0 with hneg | hnonneg
      · rw [zoneWatermarkOk_negative z classzoneIdx allocFlags horder hm hneg]
        refine ⟨fun hstarved => absurd ?_ hfed, fun h => absurd h.left_nonneg (not_le.mpr hneg)⟩
        have hreduced := reducedMark_mono allocFlags hle
        obtain ⟨hzero, hfew, htotal⟩ := hstarved
        exact ⟨hzero, hfew, by omega⟩
      · exact zoneWatermarkOk_iff_above z classzoneIdx allocFlags horder hm hnonneg
    have hresult := habove mark le_rfl hmark
    refine ⟨hresult, fun hfew => ?_, fun z' hfree hreserve hle hpass => ?_, fun m hle hm hpass => ?_⟩
    · rw [Bool.eq_false_iff]
      intro hpass
      have hnonneg := (hresult.mp hpass).left_nonneg
      have := (left_eq z horder).1
      omega
    · have hmore := (hresult.mp hpass).mono hfree hreserve hle
      exact (zoneWatermarkOk_iff_above z' classzoneIdx allocFlags horder hmark
        hmore.left_nonneg).mpr hmore
    · exact hresult.mpr (((habove m hle hm).mp hpass).anti hle)

/-- A zone with a single free block of 1024 pages. -/
def oneBlock : Watched :=
  ⟨1024, fun _ => 0, fun o => if o = 10 then 1 else 0, by decide, fun _ => by decide, by decide⟩

/-- Requests for single pages are checked in it. -/
theorem zoneWatermarkOk_iff_oneBlock : Checked oneBlock 0 100 0 0 :=
  (zoneWatermarkOk_iff oneBlock 0 100 0 0 (by decide) (by decide)).mpr fun hstarved =>
    absurd hstarved.2.1 (by decide)

/-- A zone with no free page and no reserve. -/
def emptyZone : Watched :=
  ⟨0, fun _ => 0, fun _ => 0, by decide, fun _ => by decide, by decide⟩

/-- A request of order zero passes a mark of a hundred pages in it. -/
theorem emptyZone_counterexample :
    zoneWatermarkOk emptyZone 0 100 0 0 = true ∧ emptyZone.freePages < 2 ^ 0 ∧
      ¬Above emptyZone 0 100 0 0 ∧ ¬Checked emptyZone 0 100 0 0 := by
  have hpass : zoneWatermarkOk emptyZone 0 100 0 0 = true := by decide +kernel
  have hnot : ¬Above emptyZone 0 100 0 0 := fun h => by
    have hrest : left emptyZone 0 < 0 := by decide +kernel
    exact absurd h.left_nonneg (not_le.mpr hrest)
  exact ⟨hpass, by decide, hnot, fun h => hnot (h.result.mp hpass)⟩

end BiscuitOS.ZoneWatermark
