import BiscuitOS.MachineWord
import BiscuitOS.BuddyModel
import BiscuitOS.WordBitmap

/-!
# Flags of pageblocks

The bitmap of a zone in `mm/page_alloc.c`, packed from the zone's first frame
on. The bit functions of `lib/bitmap.c` take their index as an `int`; each
function here returns the indices used besides its result.
-/

namespace BiscuitOS.PageblockFlags

open MachineWord BuddyModel WordBitmap

/-- `NR_PAGEBLOCK_BITS`. -/
def nrPageblockBits : ℕ := 3

/-- The parts of `struct zone` that the flags use. Its frames are numbered by `unsigned int`, as
`find_limits` numbers them. -/
structure FlagZone where
  /-- `zone_start_pfn`. -/
  zoneStartPfn : ℕ
  /-- `spanned_pages`. -/
  spannedPages : ℕ
  /-- `pageblock_flags`, as the words of the bit functions. -/
  pageblockFlags : Words 32
  /-- The zone is not empty. -/
  nonempty : 0 < spannedPages
  /-- Frame numbers fit an `unsigned int`. -/
  fits : zoneStartPfn + spannedPages ≤ 2 ^ 32

/-- The frame lies in the zone. -/
def FlagZone.Spans (z : FlagZone) (pfn : ℕ) : Prop :=
  z.zoneStartPfn ≤ pfn ∧ pfn < z.zoneStartPfn + z.spannedPages

/-- `roundup` on `unsigned long`. -/
def roundup (x y : ℕ) : ℕ := wrap 64 (wrap 64 (x + (y - 1)) / y * y)

/-- `usemap_size`, in bytes. -/
def usemapSize (zonesize : ℕ) : ℕ :=
  let usemapsize := roundup zonesize pageblockNrPages
  let usemapsize := usemapsize >>> pageblockOrder
  let usemapsize := wrap 64 (usemapsize * nrPageblockBits)
  roundup usemapsize (8 * 4) / 8

/-- `pfn_to_bitidx`, which returns an `int`. -/
def pfnToBitidx (z : FlagZone) (pfn : ℕ) : ℤ :=
  toSigned 32 (wrap 64 (wrapSub 64 pfn z.zoneStartPfn >>> pageblockOrder * nrPageblockBits) : ℕ)

/-- The index that a bit function gets: a sum of `unsigned long` passed as an `int`. -/
def bitArgument (bitidx startBitidx : ℕ) : ℤ := toSigned 32 (wrap 64 (bitidx + startBitidx) : ℕ)

/-- `set_bit` or `clear_bit`. -/
def storeBit (map : Words 32) (nr : ℤ) (set : Bool) : Words 32 :=
  if set then setBit map nr.toNat else clearBit map nr.toNat

/-- The loop of `set_pageblock_flags_group`, with the rounds left; nothing for an index in front of
the bitmap. -/
def setFlagsLoop (map : Words 32) (flags bitidx startBitidx value : ℕ) :
    ℕ → Option (Words 32 × List ℤ)
  | 0 => some (map, [])
  | n + 1 =>
    let nr := bitArgument bitidx startBitidx
    if nr < 0 then none
    else
      (setFlagsLoop (storeBit map nr (flags &&& value ≠ 0)) flags bitidx (startBitidx + 1)
        (wrap 64 (value * 2)) n).map fun r => (r.1, nr :: r.2)

/-- `set_pageblock_flags_group` on the page with a frame number. -/
def setPageblockFlagsGroup (z : FlagZone) (pfn flags startBitidx endBitidx : ℕ) :
    Option (FlagZone × List ℤ) :=
  (setFlagsLoop z.pageblockFlags flags (toUnsigned 64 (pfnToBitidx z pfn)) startBitidx 1
    (endBitidx + 1 - startBitidx)).map fun r => ({ z with pageblockFlags := r.1 }, r.2)

/-- The loop of `get_pageblock_flags_group`, with the rounds left. -/
def getFlagsLoop (map : Words 32) (bitidx startBitidx value flags : ℕ) : ℕ → Option (ℕ × List ℤ)
  | 0 => some (flags, [])
  | n + 1 =>
    let nr := bitArgument bitidx startBitidx
    if nr < 0 then none
    else
      (getFlagsLoop map bitidx (startBitidx + 1) (wrap 64 (value * 2))
        (if bit map nr.toNat then flags ||| value else flags) n).map fun r => (r.1, nr :: r.2)

/-- `get_pageblock_flags_group` on the page with a frame number. -/
def getPageblockFlagsGroup (z : FlagZone) (pfn startBitidx endBitidx : ℕ) : Option (ℕ × List ℤ) :=
  getFlagsLoop z.pageblockFlags (toUnsigned 64 (pfnToBitidx z pfn)) startBitidx 1 0
    (endBitidx + 1 - startBitidx)

/-- The block of a frame, counted from the zone's first frame. -/
def blockOf (z : FlagZone) (pfn : ℕ) : ℕ := (pfn - z.zoneStartPfn) / pageblockNrPages

/-- Every index lies inside the bitmap. -/
def Inside (z : FlagZone) (used : List ℤ) : Prop :=
  ∀ nr ∈ used, 0 ≤ nr ∧ nr < 8 * (usemapSize z.spannedPages : ℤ)

variable {z : FlagZone} {map : Words 32} {pfn q flags first last i n b : ℕ}

/-- Without an overflow the rounding gives the least multiple. -/
theorem roundup_of_le {x y : ℕ} (hy : 0 < y) (hx : x + y ≤ 2 ^ 64) :
    x ≤ roundup x y ∧ y ∣ roundup x y ∧ roundup x y < x + y := by
  have hmod := Nat.div_add_mod (x + (y - 1)) y
  have hlt : (x + (y - 1)) % y < y := Nat.mod_lt _ hy
  have hcomm : (x + (y - 1)) / y * y = y * ((x + (y - 1)) / y) := Nat.mul_comm _ _
  have he : roundup x y = (x + (y - 1)) / y * y := by
    rw [roundup, wrap_of_lt (show x + (y - 1) < 2 ^ 64 by omega), wrap_of_lt (by omega)]
  rw [he]
  exact ⟨by omega, Nat.dvd_mul_left _ _, by omega⟩

/-- The block of a frame is one of those that cover the zone. -/
theorem blockOf_lt (h : z.Spans pfn) :
    blockOf z pfn + 1 ≤ roundup z.spannedPages pageblockNrPages / pageblockNrPages ∧
      roundup z.spannedPages pageblockNrPages / pageblockNrPages ≤ 2 ^ 22 + 1 := by
  have hfits := z.fits
  obtain ⟨hlow, hhigh⟩ := h
  have hsize : pageblockNrPages = 1024 := rfl
  obtain ⟨hle, hdvd, hlt⟩ := roundup_of_le (x := z.spannedPages) (y := pageblockNrPages) (by decide)
    (by rw [hsize]; omega)
  rw [blockOf, hsize] at *
  obtain ⟨k, hk⟩ := hdvd
  rw [hk] at hle hlt ⊢
  rw [Nat.mul_div_cancel_left k (by decide)]
  constructor <;> omega

/-- The bitmap has room for the bits of each block. -/
theorem usemapSize_room (h : z.Spans pfn) :
    (blockOf z pfn + 1) * nrPageblockBits ≤ 8 * usemapSize z.spannedPages := by
  obtain ⟨hblock, hblocks⟩ := blockOf_lt h
  rw [usemapSize]
  have hshift : roundup z.spannedPages pageblockNrPages >>> pageblockOrder =
      roundup z.spannedPages pageblockNrPages / pageblockNrPages := Nat.shiftRight_eq_div_pow _ _
  rw [hshift]
  generalize roundup z.spannedPages pageblockNrPages / pageblockNrPages = blocks at hblock hblocks ⊢
  have hbits : nrPageblockBits = 3 := rfl
  rw [hbits, wrap_of_lt (show blocks * 3 < 2 ^ 64 by omega)]
  obtain ⟨hle, hdvd, -⟩ := roundup_of_le (x := blocks * 3) (y := 8 * 4) (by decide) (by omega)
  omega

/-- The first bit of a block. -/
theorem pfnToBitidx_eq (h : z.Spans pfn) :
    toUnsigned 64 (pfnToBitidx z pfn) = blockOf z pfn * nrPageblockBits ∧
      blockOf z pfn * nrPageblockBits < 2 ^ 24 := by
  have hfits := z.fits
  have hlow := h.1
  have hhigh := h.2
  have hbits : nrPageblockBits = 3 := rfl
  have hsize : pageblockNrPages = 1024 := rfl
  have hsmall : blockOf z pfn < 2 ^ 22 := by
    rw [blockOf, hsize]
    omega
  have hbound : blockOf z pfn * nrPageblockBits < 2 ^ 24 := by
    rw [hbits]
    omega
  have hshift : wrapSub 64 pfn z.zoneStartPfn >>> pageblockOrder = blockOf z pfn := by
    rw [wrapSub_of_le (by omega) hlow, Nat.shiftRight_eq_div_pow]
    rfl
  have hidx : pfnToBitidx z pfn = (blockOf z pfn * nrPageblockBits : ℕ) := by
    rw [pfnToBitidx, hshift, wrap_of_lt (by omega), toSigned_of_lt (by decide) (by omega)]
  refine ⟨?_, hbound⟩
  have h0 : (0 : ℤ) ≤ (blockOf z pfn * nrPageblockBits : ℕ) := Int.natCast_nonneg _
  have hcast := toUnsigned_of_lt (w := 64) h0 (by omega)
  rw [hidx]
  exact_mod_cast hcast

/-- Small indices are passed as they are. -/
theorem bitArgument_eq (h : i + b < 2 ^ 31) : bitArgument i b = (i + b : ℕ) := by
  rw [bitArgument, wrap_of_lt (by omega), toSigned_of_lt (by decide) h]

/-- A flag of the value is set when its bit is. -/
theorem and_two_pow_ne_zero (flags k : ℕ) : decide (flags &&& 2 ^ k ≠ 0) = flags.testBit k := by
  rw [Nat.and_two_pow]
  cases flags.testBit k with
  | false => simp
  | true => simp

/-- The value shifted for the next round. -/
theorem value_succ {k : ℕ} (hk : k < 63) : wrap 64 (2 ^ k * 2) = 2 ^ (k + 1) := by
  rw [← pow_succ, wrap_of_lt (Nat.pow_lt_pow_right (by decide) (by omega))]

/-- The indices used from one on. -/
def UsedFrom (used : List ℤ) (i n : ℕ) : Prop :=
  ∀ nr ∈ used, ∃ j : ℕ, nr = j ∧ i ≤ j ∧ j < i + n

/-- One more index in front. -/
theorem UsedFrom.cons {used : List ℤ} (h : UsedFrom used (i + 1) n) : UsedFrom (i :: used) i (n + 1) := by
  intro nr hnr
  rcases List.mem_cons.mp hnr with rfl | hnr
  · exact ⟨i, rfl, le_rfl, by omega⟩
  · obtain ⟨j, rfl, h1, h2⟩ := h nr hnr
    exact ⟨j, rfl, by omega, by omega⟩

/-- The bits after the loop that stores flags. -/
theorem setFlagsLoop_spec (map : Words 32) (flags i first k n : ℕ) (hidx : i + first + n < 2 ^ 31) (hk : k + n ≤ 63) :
    ∃ map' used, setFlagsLoop map flags i first (2 ^ k) n = some (map', used) ∧
      UsedFrom used (i + first) n ∧
      ∀ j, bit map' j = if i + first ≤ j ∧ j < i + first + n then flags.testBit (k + (j - (i + first)))
        else bit map j := by
  induction n generalizing map first k with
  | zero =>
    refine ⟨map, [], rfl, fun nr hnr => (by cases hnr), fun j => ?_⟩
    rw [if_neg (by omega)]
  | succ n ih =>
    obtain ⟨map', used, hrest, hused, hbits⟩ :=
      ih (storeBit map (i + first : ℕ) (flags.testBit k)) (first + 1) (k + 1) (by omega) (by omega)
    refine ⟨map', _, ?_, UsedFrom.cons hused, fun j => ?_⟩
    · rw [setFlagsLoop, bitArgument_eq (by omega), if_neg (by omega), and_two_pow_ne_zero,
        value_succ (by omega), hrest, Option.map_some]
    · have hstore : bit (storeBit map (i + first : ℕ) (flags.testBit k)) j =
          if j = i + first then flags.testBit k else bit map j := by
        rw [storeBit, Int.toNat_natCast]
        cases flags.testBit k with
        | false =>
          rw [if_neg (by decide), bit_clearBit (by decide)]
          by_cases hj : j = i + first
          · simp [hj]
          · simp [hj]
        | true =>
          rw [if_pos rfl, bit_setBit (by decide)]
          by_cases hj : j = i + first
          · simp [hj]
          · simp [hj]
      rw [hbits j, hstore]
      by_cases hj : j = i + first
      · rw [if_neg (by omega), if_pos hj, if_pos (by omega), hj, Nat.sub_self, Nat.add_zero]
      · rw [if_neg hj]
        by_cases hin : i + (first + 1) ≤ j ∧ j < i + (first + 1) + n
        · rw [if_pos hin, if_pos (by omega)]
          congr 1
          omega
        · rw [if_neg hin, if_neg (by omega)]

/-- The value that the loop collects. -/
theorem getFlagsLoop_spec (map : Words 32) (i first k acc n : ℕ) (hidx : i + first + n < 2 ^ 31) (hk : k + n ≤ 63) :
    ∃ r used, getFlagsLoop map i first (2 ^ k) acc n = some (r, used) ∧
      UsedFrom used (i + first) n ∧
      ∀ j, r.testBit j = (acc.testBit j || decide (k ≤ j ∧ j < k + n) && bit map (i + first + (j - k))) := by
  induction n generalizing first k acc with
  | zero =>
    refine ⟨acc, [], rfl, fun nr hnr => (by cases hnr), fun j => ?_⟩
    rw [decide_eq_false (by omega), Bool.false_and, Bool.or_false]
  | succ n ih =>
    obtain ⟨r, used, hrest, hused, hbits⟩ :=
      ih (first + 1) (k + 1) (if bit map (i + first) then acc ||| 2 ^ k else acc) (by omega) (by omega)
    refine ⟨r, _, ?_, UsedFrom.cons hused, fun j => ?_⟩
    · rw [getFlagsLoop, bitArgument_eq (by omega), if_neg (by omega), Int.toNat_natCast,
        value_succ (by omega), hrest, Option.map_some]
    · rw [hbits j]
      by_cases hj : j = k
      · rw [decide_eq_false (by omega), decide_eq_true (by omega), hj, Nat.sub_self, Nat.add_zero]
        cases bit map (i + first) with
        | false => simp
        | true => simp [Nat.testBit_or]
      · have hother : (if bit map (i + first) then acc ||| 2 ^ k else acc).testBit j = acc.testBit j := by
          cases bit map (i + first) with
          | false => rfl
          | true =>
            rw [if_pos rfl, Nat.testBit_or, Nat.testBit_two_pow_of_ne (Ne.symm hj), Bool.or_false]
        rw [hother]
        by_cases hin : k + 1 ≤ j ∧ j < k + 1 + n
        · have hsum : i + (first + 1) + (j - (k + 1)) = i + first + (j - k) := by omega
          rw [decide_eq_true hin, decide_eq_true (by omega), hsum]
        · rw [decide_eq_false hin, decide_eq_false (by omega), Bool.false_and, Bool.false_and]

/-- The indices used for a range of flags of a block lie inside the bitmap. -/
theorem UsedFrom.inside {used : List ℤ} (h : z.Spans pfn) (hle : first ≤ last)
    (hlast : last < nrPageblockBits)
    (hused : UsedFrom used (blockOf z pfn * nrPageblockBits + first) (last + 1 - first)) :
    Inside z used := by
  have hroom := usemapSize_room h
  rw [Nat.succ_mul] at hroom
  intro nr hnr
  obtain ⟨j, rfl, -, hj⟩ := hused nr hnr
  omega

/-- The flags that are returned. -/
theorem getPageblockFlagsGroup_spec (z : FlagZone) (pfn : ℕ) (h : z.Spans pfn) (hle : first ≤ last)
    (hlast : last < nrPageblockBits) :
    ∃ r used, getPageblockFlagsGroup z pfn first last = some (r, used) ∧ Inside z used ∧
      ∀ j, r.testBit j = (decide (j < last + 1 - first) &&
        bit z.pageblockFlags (blockOf z pfn * nrPageblockBits + first + j)) := by
  obtain ⟨hidx, hsmall⟩ := pfnToBitidx_eq h
  have hbits : nrPageblockBits = 3 := rfl
  obtain ⟨r, used, hget, hused, hspec⟩ := getFlagsLoop_spec z.pageblockFlags
    (blockOf z pfn * nrPageblockBits) first 0 0 (last + 1 - first) (by omega) (by omega)
  refine ⟨r, used, by rw [getPageblockFlagsGroup, hidx]; exact hget, hused.inside h hle hlast,
    fun j => ?_⟩
  rw [hspec j, Nat.zero_testBit, Bool.false_or, Nat.sub_zero, Nat.zero_add]
  simp only [Nat.zero_le, true_and]

/-- The flags of a zone are a map from its blocks: a range of flags of one block is set, each page of
the block gets it back, and the flags of other blocks and the other flags of the block stay. Every
bit used lies inside the bitmap. -/
theorem pageblockFlags_isMap (z : FlagZone) (pfn flags startBitidx endBitidx : ℕ)
    (h : z.Spans pfn) (hle : startBitidx ≤ endBitidx) (hend : endBitidx < nrPageblockBits) :
    ∃ z' used, setPageblockFlagsGroup z pfn flags startBitidx endBitidx = some (z', used) ∧
      Inside z used ∧ z'.zoneStartPfn = z.zoneStartPfn ∧ z'.spannedPages = z.spannedPages ∧
      (∀ q, z.Spans q → blockOf z q = blockOf z pfn →
        ∃ used', getPageblockFlagsGroup z' q startBitidx endBitidx =
          some (flags % 2 ^ (endBitidx - startBitidx + 1), used') ∧ Inside z used') ∧
      ∀ q first last, z.Spans q → first ≤ last → last < nrPageblockBits →
        blockOf z q ≠ blockOf z pfn ∨ last < startBitidx ∨ endBitidx < first →
        ∃ r used₁ used₂, getPageblockFlagsGroup z q first last = some (r, used₁) ∧
          getPageblockFlagsGroup z' q first last = some (r, used₂) ∧ Inside z used₁ ∧
          Inside z used₂ := by
  obtain ⟨hidx, hsmall⟩ := pfnToBitidx_eq h
  have hbits : nrPageblockBits = 3 := rfl
  obtain ⟨map, used, hset, hused, hmap⟩ := setFlagsLoop_spec z.pageblockFlags flags
    (blockOf z pfn * nrPageblockBits) startBitidx 0
    (endBitidx + 1 - startBitidx) (by omega) (by omega)
  refine ⟨{ z with pageblockFlags := map }, used, ?_, hused.inside h hle hend, rfl, rfl,
    fun q hq hblock => ?_, fun q first last hq hrange hlast hother => ?_⟩
  · rw [setPageblockFlagsGroup, hidx]
    exact congrArg _ hset
  · obtain ⟨r, used', hget, hinside, hspec⟩ := getPageblockFlagsGroup_spec
      { z with pageblockFlags := map } q hq hle hend
    have hr : r = flags % 2 ^ (endBitidx - startBitidx + 1) := by
      refine Nat.eq_of_testBit_eq fun j => ?_
      have hq' : blockOf { z with pageblockFlags := map } q = blockOf z pfn := hblock
      rw [hspec j, hq', Nat.testBit_mod_two_pow]
      by_cases hj : j < endBitidx + 1 - startBitidx
      · rw [decide_eq_true hj, decide_eq_true (show j < endBitidx - startBitidx + 1 by omega), hmap,
          if_pos (by omega), Nat.add_sub_cancel_left, Nat.zero_add]
      · rw [decide_eq_false hj, decide_eq_false (show ¬j < endBitidx - startBitidx + 1 by omega),
          Bool.false_and, Bool.false_and]
    exact ⟨used', hr ▸ hget, hinside⟩
  · obtain ⟨r, used₁, hget, hinside, hspec⟩ := getPageblockFlagsGroup_spec z q hq hrange hlast
    obtain ⟨r', used₂, hget', hinside', hspec'⟩ := getPageblockFlagsGroup_spec
      { z with pageblockFlags := map } q hq hrange hlast
    have hr : r' = r := by
      refine Nat.eq_of_testBit_eq fun j => ?_
      rw [hspec j, hspec' j]
      by_cases hj : j < last + 1 - first
      · rw [decide_eq_true hj, Bool.true_and, Bool.true_and]
        have hsame : blockOf { z with pageblockFlags := map } q = blockOf z q := rfl
        rw [hsame, hmap, if_neg]
        rw [hbits] at hlast ⊢
        omega
      · rw [decide_eq_false hj, Bool.false_and, Bool.false_and]
    exact ⟨r, used₁, used₂, hget, hr ▸ hget', hinside, hinside'⟩

/-- A zone of two blocks: the first has flag 2, the other one flags 0 and 2. -/
def twoBlocks : FlagZone := ⟨5, 2048, fun i => if i = 0 then 44#32 else 0#32, by decide, by decide⟩

/-- Flag 1 of the first block, set with flag 0 cleared, leaves flag 2 and the other block. -/
theorem pageblockFlags_isMap_twoBlocks : ∃ z' used used₁ used₂ used₃,
    setPageblockFlagsGroup twoBlocks 6 2 0 1 = some (z', used) ∧ Inside twoBlocks used ∧
      getPageblockFlagsGroup z' 7 0 1 = some (2, used₁) ∧
      getPageblockFlagsGroup z' 7 2 2 = some (1, used₂) ∧
      getPageblockFlagsGroup z' 1500 0 2 = some (5, used₃) := by
  obtain ⟨z', used, hset, hinside, -, -, hsame, hother⟩ := pageblockFlags_isMap twoBlocks 6 2 0 1
    ⟨by decide, by decide⟩ (by decide) (by decide)
  obtain ⟨used₁, hget, -⟩ := hsame 7 ⟨by decide, by decide⟩ (by decide)
  obtain ⟨r, old, used₂, hold, hflag, -⟩ := hother 7 2 2 ⟨by decide, by decide⟩ (by decide)
    (by decide) (.inr (.inr (by decide)))
  obtain ⟨r', old', used₃, hold', hblock, -⟩ := hother 1500 0 2 ⟨by decide, by decide⟩ (by decide)
    (by decide) (.inl (by decide))
  have hflag0 : getPageblockFlagsGroup twoBlocks 7 2 2 = some (1, [2]) := by decide
  have hblock0 : getPageblockFlagsGroup twoBlocks 1500 0 2 = some (5, [3, 4, 5]) := by decide
  obtain ⟨rfl, -⟩ := Prod.mk.inj (Option.some.inj (hold.symm.trans hflag0))
  obtain ⟨rfl, -⟩ := Prod.mk.inj (Option.some.inj (hold'.symm.trans hblock0))
  exact ⟨z', used, used₁, used₂, used₃, hset, hinside, hget, hflag, hblock⟩

end BiscuitOS.PageblockFlags
