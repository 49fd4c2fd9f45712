import BiscuitOS.BootMemory
import BiscuitOS.HighmemSweep

/-!
# Holes of the zones

`arm_bootmem_free` of `arch/arm/mm/init.c` and `calculate_node_totalpages` of
`mm/page_alloc.c`. The sizes of the zones come from the banks, after
`sanity_check_meminfo` has cut them; what is subtracted from them to get their
holes comes from the memory table of memblock, filled before that.
-/

namespace BiscuitOS.ZoneHoles

open MachineWord TransitionRun MemblockModel MemblockTable HighmemSweep
open MeminfoModel MeminfoSort MeminfoLimit BootMemory

/-- The first two entries of `zone_sizes`. -/
def zoneSizes (minPfn maxLow maxHigh : ℕ) : ℕ × ℕ := (wrapSub 64 maxLow minPfn, wrapSub 64 maxHigh maxLow)

/-- One round of the loop over the memory regions: the first two entries of `zhole_size`. -/
def holeStep (maxLow : ℕ) (zhole : ℕ × ℕ) (reg : Region) : ℕ × ℕ :=
  let start := memoryBasePfn reg
  let stop := memoryEndPfn reg
  (if start < maxLow then wrapSub 64 zhole.1 (wrapSub 64 (min stop maxLow) start) else zhole.1,
    if maxLow < stop then wrapSub 64 zhole.2 (wrapSub 64 stop (max start maxLow)) else zhole.2)

/-- `arm_bootmem_free`: the arrays `zone_sizes` and `zhole_size` for the three zones. -/
def armBootmemFree (memory : MemblockType) (minPfn maxLow maxHigh : ℕ) : List ℕ × List ℕ :=
  let sizes := zoneSizes minPfn maxLow maxHigh
  let zhole := (entries memory).foldl (holeStep maxLow) sizes
  ([sizes.1, sizes.2, 0], [zhole.1, zhole.2, 0])

/-- `calculate_node_totalpages`: `node_spanned_pages` and `node_present_pages`. -/
def calculateNodeTotalpages (zoneSizes zholeSize : List ℕ) : ℕ × ℕ :=
  let totalpages := zoneSizes.foldl (fun total size => wrap 64 (total + size)) 0
  (totalpages, zholeSize.foldl (wrapSub 64) totalpages)

/-- The memory table and the limits that `arm_bootmem_free` gets: `arm_memblock_init`, later
`sanity_check_meminfo`, and `find_limits`. -/
def bootLimits (depth pgd vm cacheid : ℕ) (mi : Meminfo) : Option (MemblockType × ℕ × ℕ × ℕ) :=
  (armMemblockInit depth pgd mi).bind fun filled =>
    (sanityCheckMeminfo (maxBanks + 1) vm cacheid filled.1).map fun mi =>
      (filled.2.memory, findLimits mi)

instance (r : Region) (pfn : ℕ) : Decidable (Within r pfn) := inferInstanceAs (Decidable (_ ∧ _))

/-- A frame lies wholly in a memory region. -/
def Covered (memory : MemblockType) (pfn : ℕ) : Prop := ∃ r ∈ entries memory, Within r pfn

instance (memory : MemblockType) (pfn : ℕ) : Decidable (Covered memory pfn) :=
  inferInstanceAs (Decidable (∃ r ∈ entries memory, Within r pfn))

/-- The number of pages of the memory table in a range of frames. -/
def pagesIn (memory : MemblockType) (a b : ℕ) : ℕ := ((Finset.Ico a b).filter (Covered memory)).card

/-- The arithmetic on the holes is exact. -/
structure HolesExact (memory : MemblockType) (minPfn maxLow maxHigh : ℕ) : Prop where
  /-- No subtraction from the holes of the low zone wraps. -/
  low_fits : ∀ before reg after, entries memory = before ++ reg :: after → memoryBasePfn reg < maxLow →
    memoryBasePfn reg ≤ min (memoryEndPfn reg) maxLow ∧
      min (memoryEndPfn reg) maxLow - memoryBasePfn reg ≤
        (before.foldl (holeStep maxLow) (zoneSizes minPfn maxLow maxHigh)).1
  /-- No subtraction from those of the high zone does. -/
  high_fits : ∀ before reg after, entries memory = before ++ reg :: after → maxLow < memoryEndPfn reg →
    max (memoryBasePfn reg) maxLow ≤ memoryEndPfn reg ∧
      memoryEndPfn reg - max (memoryBasePfn reg) maxLow ≤
        (before.foldl (holeStep maxLow) (zoneSizes minPfn maxLow maxHigh)).2
  /-- The low zone without its holes has the pages of memory in it. -/
  low : wrapSub 64 (zoneSizes minPfn maxLow maxHigh).1
      ((entries memory).foldl (holeStep maxLow) (zoneSizes minPfn maxLow maxHigh)).1 =
    pagesIn memory minPfn maxLow
  /-- The high zone has. -/
  high : wrapSub 64 (zoneSizes minPfn maxLow maxHigh).2
      ((entries memory).foldl (holeStep maxLow) (zoneSizes minPfn maxLow maxHigh)).2 =
    pagesIn memory maxLow maxHigh
  /-- The pages present are not more than the pages spanned. -/
  present : (calculateNodeTotalpages (armBootmemFree memory minPfn maxLow maxHigh).1
      (armBootmemFree memory minPfn maxLow maxHigh).2).2 ≤
    (calculateNodeTotalpages (armBootmemFree memory minPfn maxLow maxHigh).1
      (armBootmemFree memory minPfn maxLow maxHigh).2).1

/-- A table of whole pages, sorted and disjoint. -/
structure Paged (memory : MemblockType) : Prop where
  /-- Its regions have whole pages. -/
  whole : ∀ r ∈ entries memory, 4096 ∣ r.base ∧ 4096 ∣ r.size ∧ r.base + r.size < 2 ^ 32
  /-- Each one ends before the next ones start. -/
  apart : (entries memory).Pairwise fun r r' => r.base + r.size ≤ r'.base

variable {memory : MemblockType} {minPfn maxLow maxHigh a b c : ℕ} {rs : List Region}

/-- The pages of a region in a range of frames. -/
def clip (a b : ℕ) (r : Region) : ℕ := min (memoryEndPfn r) b - max (memoryBasePfn r) a

/-- The frames of a region of whole pages. -/
theorem pfns_whole {r : Region} (h : 4096 ∣ r.base ∧ 4096 ∣ r.size ∧ r.base + r.size < 2 ^ 32) :
    memoryBasePfn r * 4096 = r.base ∧ memoryEndPfn r * 4096 = r.base + r.size := by
  obtain ⟨⟨p, hp⟩, ⟨q, hq⟩, hfits⟩ := h
  obtain ⟨hbase, hend, -, -⟩ := pfns_eq hfits.le
  rw [hbase, hend]
  omega

/-- The pages of one region. -/
theorem clip_eq_card {r : Region} (hfits : r.base + r.size < 2 ^ 32) :
    clip a b r = ((Finset.Ico a b).filter fun pfn => Within r pfn).card := by
  have hset : (Finset.Ico a b).filter (fun pfn => Within r pfn) =
      Finset.Ico (max (memoryBasePfn r) a) (min (memoryEndPfn r) b) := by
    ext pfn
    rw [Finset.mem_filter, Finset.mem_Ico, Finset.mem_Ico, within_iff hfits.le, max_le_iff, lt_min_iff]
    omega
  rw [hset, Nat.card_Ico, clip]

/-- Regions one after the other have as many pages in a range as it has frames of theirs. -/
theorem sum_clip (hfits : ∀ r ∈ rs, r.base + r.size < 2 ^ 32)
    (hapart : rs.Pairwise fun r r' => r.base + r.size ≤ r'.base) :
    (rs.map (clip a b)).sum = ((Finset.Ico a b).filter fun pfn => ∃ r ∈ rs, Within r pfn).card := by
  induction rs with
  | nil =>
    have hnone : (Finset.Ico a b).filter (fun pfn => ∃ r ∈ ([] : List Region), Within r pfn) = ∅ :=
      Finset.filter_eq_empty_iff.mpr fun pfn _ ⟨r, hr, _⟩ => List.not_mem_nil hr
    rw [hnone]
    rfl
  | cons r rest ih =>
    obtain ⟨hfirst, hrest⟩ := List.pairwise_cons.mp hapart
    have hunion : (Finset.Ico a b).filter (fun pfn => ∃ q ∈ r :: rest, Within q pfn) =
        (Finset.Ico a b).filter (fun pfn => Within r pfn) ∪
          (Finset.Ico a b).filter fun pfn => ∃ q ∈ rest, Within q pfn := by
      ext pfn
      simp only [Finset.mem_filter, Finset.mem_union, List.mem_cons, exists_eq_or_imp, and_or_left]
    have hdisjoint : Disjoint ((Finset.Ico a b).filter fun pfn => Within r pfn)
        ((Finset.Ico a b).filter fun pfn => ∃ q ∈ rest, Within q pfn) := by
      refine Finset.disjoint_left.mpr fun pfn hin hlater => ?_
      obtain ⟨-, q, hq, hbase, -⟩ := Finset.mem_filter.mp hlater
      have hend := (Finset.mem_filter.mp hin).2.2
      have := hfirst q hq
      omega
    rw [List.map_cons, List.sum_cons, ih (fun q hq => hfits q (List.mem_cons_of_mem r hq)) hrest,
      clip_eq_card (hfits r List.mem_cons_self), hunion, Finset.card_union_of_disjoint hdisjoint]

/-- The pages in a range of frames, region by region. -/
theorem pagesIn_eq (h : Paged memory) : pagesIn memory a b = ((entries memory).map (clip a b)).sum :=
  (sum_clip (fun r hr => (h.whole r hr).2.2) h.apart).symm

/-- There are not more pages than frames above the first page. -/
theorem pagesIn_le (hmin : ∀ pfn, Covered memory pfn → c ≤ pfn) :
    pagesIn memory a b ≤ b - max a c := by
  have hsub : (Finset.Ico a b).filter (Covered memory) ⊆ Finset.Ico (max a c) b := by
    intro pfn hpfn
    obtain ⟨hin, hcovered⟩ := Finset.mem_filter.mp hpfn
    obtain ⟨hle, hlt⟩ := Finset.mem_Ico.mp hin
    exact Finset.mem_Ico.mpr ⟨max_le hle (hmin pfn hcovered), hlt⟩
  have hcard := Finset.card_le_card hsub
  rwa [Nat.card_Ico] at hcard

/-- A wider range has as many pages exactly when all of them lie in the narrower one. -/
theorem pagesIn_eq_iff (hbc : b ≤ c) (hab : a ≤ b) (hlast : ∀ pfn, Covered memory pfn → pfn < c) :
    pagesIn memory a c = pagesIn memory a b ↔ ∀ pfn, Covered memory pfn → pfn < b := by
  have hsub : (Finset.Ico a b).filter (Covered memory) ⊆ (Finset.Ico a c).filter (Covered memory) :=
    Finset.filter_subset_filter _ (Finset.Ico_subset_Ico_right hbc)
  constructor
  · intro hcard pfn hcovered
    by_contra hge
    have hin : pfn ∈ (Finset.Ico a c).filter (Covered memory) :=
      Finset.mem_filter.mpr ⟨Finset.mem_Ico.mpr ⟨by omega, hlast pfn hcovered⟩, hcovered⟩
    rw [← Finset.eq_of_subset_of_card_le hsub hcard.le] at hin
    exact hge (Finset.mem_Ico.mp (Finset.mem_filter.mp hin).1).2
  · intro hall
    refine congrArg Finset.card (Finset.Subset.antisymm (fun pfn hpfn => ?_) hsub)
    obtain ⟨hin, hcovered⟩ := Finset.mem_filter.mp hpfn
    exact Finset.mem_filter.mpr
      ⟨Finset.mem_Ico.mpr ⟨(Finset.mem_Ico.mp hin).1, hall pfn hcovered⟩, hcovered⟩

/-- Two subtractions are one. -/
theorem wrapSub_wrapSub (z x y : ℕ) : wrapSub 64 (wrapSub 64 z x) y = wrapSub 64 z (x + y) := by
  rw [wrapSub, wrapSub, wrapSub]
  omega

/-- Subtracting what is left gives what was subtracted. -/
theorem wrapSub_left (z x : ℕ) : wrapSub 64 z (wrapSub 64 z x) = wrap 64 x := by
  rw [wrapSub, wrapSub, wrap]
  omega

/-- One round subtracts the pages of a region in each zone. -/
theorem holeStep_eq {r : Region} (z : ℕ × ℕ) (hz : z.1 < 2 ^ 64 ∧ z.2 < 2 ^ 64)
    (hwhole : 4096 ∣ r.base ∧ 4096 ∣ r.size ∧ r.base + r.size < 2 ^ 32)
    (hmin : memoryBasePfn r < memoryEndPfn r → minPfn ≤ memoryBasePfn r) :
    holeStep maxLow z r =
      (wrapSub 64 z.1 (clip minPfn maxLow r), wrapSub 64 z.2 (clip maxLow (2 ^ 20) r)) := by
  obtain ⟨hbase, hend⟩ := pfns_whole hwhole
  have hfits := hwhole.2.2
  have hzero : ∀ x : ℕ, x < 2 ^ 64 → wrapSub 64 x 0 = x := fun x hx => by
    rw [wrapSub_of_le hx (Nat.zero_le _), Nat.sub_zero]
  rw [holeStep, clip, clip]
  generalize memoryBasePfn r = start at *
  generalize memoryEndPfn r = stop at *
  have hord : start ≤ stop ∧ stop < 2 ^ 20 := by omega
  clear hbase hend hfits hwhole
  refine Prod.ext ?_ ?_
  · dsimp only
    by_cases hlow : start < maxLow
    · have hamount : wrapSub 64 (min stop maxLow) start = min stop maxLow - start :=
        wrapSub_of_le (by omega) (by omega)
      have hclip : min stop maxLow - start = min stop maxLow - max start minPfn := by omega
      rw [if_pos hlow, hamount, hclip]
    · rw [if_neg hlow]
      have hnone : min stop maxLow - max start minPfn = 0 := by omega
      rw [hnone, hzero _ hz.1]
  · dsimp only
    by_cases hhigh : maxLow < stop
    · have hamount : wrapSub 64 stop (max start maxLow) = stop - max start maxLow :=
        wrapSub_of_le (by omega) (by omega)
      have hclip : min stop (2 ^ 20) = stop := by omega
      rw [if_pos hhigh, hamount, hclip]
    · rw [if_neg hhigh]
      have hnone : min stop (2 ^ 20) - max start maxLow = 0 := by omega
      rw [hnone, hzero _ hz.2]

/-- The rounds subtract the pages of the regions in each zone. -/
theorem holes_eq (hwhole : ∀ r ∈ rs, 4096 ∣ r.base ∧ 4096 ∣ r.size ∧ r.base + r.size < 2 ^ 32)
    (hmin : ∀ r ∈ rs, memoryBasePfn r < memoryEndPfn r → minPfn ≤ memoryBasePfn r) (z : ℕ × ℕ)
    (hz : z.1 < 2 ^ 64 ∧ z.2 < 2 ^ 64) :
    rs.foldl (holeStep maxLow) z =
      (wrapSub 64 z.1 (rs.map (clip minPfn maxLow)).sum,
        wrapSub 64 z.2 (rs.map (clip maxLow (2 ^ 20))).sum) := by
  induction rs generalizing z with
  | nil =>
    rw [List.foldl_nil, List.map_nil, List.map_nil, List.sum_nil, wrapSub_of_le hz.1 (Nat.zero_le _),
      wrapSub_of_le hz.2 (Nat.zero_le _)]
    rfl
  | cons r rest ih =>
    rw [List.foldl_cons, holeStep_eq z hz (hwhole r List.mem_cons_self) (hmin r List.mem_cons_self),
      ih (fun q hq => hwhole q (List.mem_cons_of_mem r hq))
        (fun q hq => hmin q (List.mem_cons_of_mem r hq)) _
        ⟨Nat.mod_lt _ (Nat.two_pow_pos 64), Nat.mod_lt _ (Nat.two_pow_pos 64)⟩,
      wrapSub_wrapSub, wrapSub_wrapSub, List.map_cons, List.map_cons, List.sum_cons, List.sum_cons]

/-- The pages of a node are those of its zones, and the pages present what is left of them. -/
theorem totalpages_eq (y z s t : ℕ) :
    calculateNodeTotalpages [y, z, 0] [wrapSub 64 y s, wrapSub 64 z t, 0] =
      (wrap 64 (y + z), wrap 64 (s + t)) := by
  rw [calculateNodeTotalpages, List.foldl_cons, List.foldl_cons, List.foldl_cons, List.foldl_nil,
    List.foldl_cons, List.foldl_cons, List.foldl_cons, List.foldl_nil]
  refine Prod.ext ?_ ?_
  · simp only [wrap]
    omega
  · simp only [wrap, wrapSub]
    omega

/-- What is subtracted in one round is what the region has in the zone. -/
theorem amount_le {start stop : ℕ} (hmin : start < stop → minPfn ≤ start) :
    min stop maxLow - start ≤ min stop maxLow - max start minPfn := by
  omega

/-- Frames of a region are covered. -/
theorem covered_base {r : Region} (hr : r ∈ entries memory) (hfits : r.base + r.size ≤ 2 ^ 32)
    (hlt : memoryBasePfn r < memoryEndPfn r) : Covered memory (memoryBasePfn r) :=
  ⟨r, hr, (within_iff hfits).mpr ⟨le_rfl, hlt⟩⟩

/-- With all pages from `min` on and the limits in order, the arithmetic is exact exactly when no page
lies beyond the high zone. -/
theorem holesExact_iff (h : Paged memory) (hmin : ∀ pfn, Covered memory pfn → minPfn ≤ pfn)
    (hminlt : minPfn < 2 ^ 32) (horder : maxLow ≤ maxHigh) (hhigh : maxHigh ≤ 2 ^ 20) :
    HolesExact memory minPfn maxLow maxHigh ↔ ∀ pfn, Covered memory pfn → pfn < maxHigh := by
  have hlast : ∀ pfn, Covered memory pfn → pfn < 2 ^ 20 := by
    rintro pfn ⟨r, hr, -, hend⟩
    have := (h.whole r hr).2.2
    omega
  have hregion : ∀ r ∈ entries memory, memoryBasePfn r < memoryEndPfn r → minPfn ≤ memoryBasePfn r :=
    fun r hr hlt => hmin _ (covered_base hr (h.whole r hr).2.2.le hlt)
  have hz : (zoneSizes minPfn maxLow maxHigh).1 < 2 ^ 64 ∧
      (zoneSizes minPfn maxLow maxHigh).2 < 2 ^ 64 :=
    ⟨Nat.mod_lt _ (Nat.two_pow_pos 64), Nat.mod_lt _ (Nat.two_pow_pos 64)⟩
  have hholes := @holes_eq minPfn maxLow _ h.whole hregion _ hz
  rw [← pagesIn_eq h, ← pagesIn_eq h] at hholes
  have hlow := @pagesIn_le memory minPfn maxLow minPfn hmin
  have hbound := @pagesIn_le memory maxLow (2 ^ 20) minPfn hmin
  have hwrap : ∀ x : ℕ, x ≤ 2 ^ 33 → wrap 64 x = x := fun x hx =>
    wrap_of_lt (hx.trans_lt (by decide))
  have hfirst : (zoneSizes minPfn maxLow maxHigh).1 = wrapSub 64 maxLow minPfn := rfl
  have hsecond : (zoneSizes minPfn maxLow maxHigh).2 = maxHigh - maxLow :=
    wrapSub_of_le (by omega) horder
  constructor
  · intro hexact
    have heq := hexact.high
    rw [hholes, wrapSub_left, hwrap _ (by omega)] at heq
    exact (pagesIn_eq_iff hhigh horder hlast).mp heq
  · intro hall
    have heq := (pagesIn_eq_iff hhigh horder hlast).mpr hall
    have htop := @pagesIn_le memory maxLow maxHigh minPfn hmin
    rw [heq] at hholes
    have hfits : pagesIn memory minPfn maxLow ≤ (zoneSizes minPfn maxLow maxHigh).1 := by
      rw [hfirst]
      rcases le_total minPfn maxLow with hle | hle
      · rw [wrapSub_of_le (by omega) hle]
        omega
      · omega
    have hfits' : pagesIn memory maxLow maxHigh ≤ (zoneSizes minPfn maxLow maxHigh).2 := by
      omega
    constructor
    · intro before reg after hentries hstart
      have hreg : reg ∈ entries memory := by
        rw [hentries]
        exact List.mem_append_right _ List.mem_cons_self
      have hbefore : ∀ r ∈ before, r ∈ entries memory := fun r hr => by
        rw [hentries]
        exact List.mem_append_left _ hr
      have hsum := @pagesIn_eq memory minPfn maxLow h
      rw [hentries, List.map_append, List.map_cons, List.sum_append, List.sum_cons] at hsum
      obtain ⟨hbase, hend⟩ := pfns_whole (h.whole reg hreg)
      have hamount := @amount_le minPfn maxLow _ _ (hregion reg hreg)
      rw [clip] at hsum
      rw [@holes_eq minPfn maxLow _ (fun r hr => h.whole r (hbefore r hr))
        (fun r hr => hregion r (hbefore r hr)) _ hz]
      dsimp only
      rw [wrapSub_of_le hz.1 (by omega)]
      omega
    · intro before reg after hentries hstart
      have hreg : reg ∈ entries memory := by
        rw [hentries]
        exact List.mem_append_right _ List.mem_cons_self
      have hbefore : ∀ r ∈ before, r ∈ entries memory := fun r hr => by
        rw [hentries]
        exact List.mem_append_left _ hr
      have hsum := @pagesIn_eq memory maxLow (2 ^ 20) h
      rw [hentries, List.map_append, List.map_cons, List.sum_append, List.sum_cons] at hsum
      obtain ⟨hbase, hend⟩ := pfns_whole (h.whole reg hreg)
      have hsmall := (h.whole reg hreg).2.2
      have hclip : min (memoryEndPfn reg) (2 ^ 20) = memoryEndPfn reg := min_eq_left (by omega)
      rw [clip, hclip] at hsum
      rw [@holes_eq minPfn maxLow _ (fun r hr => h.whole r (hbefore r hr))
        (fun r hr => hregion r (hbefore r hr)) _ hz]
      dsimp only
      rw [wrapSub_of_le hz.2 (by omega)]
      omega
    · rw [hholes, wrapSub_left]
      exact hwrap _ (by omega)
    · rw [hholes, wrapSub_left]
      exact hwrap _ (by omega)
    · have hpair : armBootmemFree memory minPfn maxLow maxHigh =
          ([(zoneSizes minPfn maxLow maxHigh).1, (zoneSizes minPfn maxLow maxHigh).2, 0],
            [wrapSub 64 (zoneSizes minPfn maxLow maxHigh).1 (pagesIn memory minPfn maxLow),
              wrapSub 64 (zoneSizes minPfn maxLow maxHigh).2 (pagesIn memory maxLow maxHigh), 0]) := by
        rw [armBootmemFree, hholes]
      rw [hpair, totalpages_eq]
      dsimp only
      rw [hwrap _ (by omega), hfirst, hsecond]
      rcases le_or_gt minPfn maxHigh with hle | hgt
      · have hspan : wrap 64 (wrapSub 64 maxLow minPfn + (maxHigh - maxLow)) = maxHigh - minPfn := by
          rw [wrap, wrapSub]
          omega
        rw [hspan]
        omega
      · have hnone : pagesIn memory minPfn maxLow + pagesIn memory maxLow maxHigh = 0 := by omega
        rw [hnone]
        exact Nat.zero_le _

variable {mi mi' : Meminfo} {m : Memblock} {l : List Membank}

/-- Banks of whole pages have all bytes of a page or none. -/
theorem bytes_page (hwhole : ∀ b ∈ l, Whole b) {x y : ℕ} (hxy : x / 4096 = y / 4096)
    (hx : x ∈ MeminfoLimit.bytes l) : y ∈ MeminfoLimit.bytes l := by
  obtain ⟨b, hb, hle, hlt⟩ := hx
  obtain ⟨p, hp⟩ := (hwhole b hb).start_dvd
  obtain ⟨q, hq⟩ := (hwhole b hb).size_dvd
  exact ⟨b, hb, by omega, by omega⟩

/-- A filled region of a table with whole pages has whole pages. -/
theorem region_dvd {t : MemblockType} (hs : Spaced 1 t) {i : ℕ} (hi : i < t.cnt)
    (hfull : 0 < (t.regions i).size)
    (hpages : ∀ x y, x / 4096 = y / 4096 → x ∈ MemblockTable.bytes t → y ∈ MemblockTable.bytes t) :
    4096 ∣ (t.regions i).base ∧ 4096 ∣ (t.regions i).base + (t.regions i).size := by
  have hfirst : (t.regions i).base ∈ MemblockTable.bytes t :=
    ⟨i, hi, le_rfl, Nat.lt_add_of_pos_right hfull⟩
  have hlast : (t.regions i).base + (t.regions i).size - 1 ∈ MemblockTable.bytes t :=
    ⟨i, hi, by omega, by rw [Region.last]; omega⟩
  constructor
  · by_contra hdvd
    obtain ⟨k, hk, hle, hlt⟩ := hpages _ ((t.regions i).base - 1) (by omega) hfirst
    rcases lt_trichotomy k i with hki | rfl | hik
    · have := hs.apart_lt hki hi
      omega
    · omega
    · have := hs.apart_lt hik hk
      rw [Region.last] at this
      omega
  · by_contra hdvd
    obtain ⟨k, hk, hle, hlt⟩ :=
      hpages _ ((t.regions i).base + (t.regions i).size) (by omega) hlast
    rcases lt_trichotomy k i with hki | rfl | hik
    · have := hs.apart_lt hki hi
      omega
    · rw [Region.last] at hlt
      omega
    · have := hs.apart_lt hik hk
      rw [Region.last] at this
      omega

/-- The memory table that is filled with banks has whole pages, those of the banks. -/
theorem initialised_paged (h : Recorded mi) (hinit : Initialised mi mi' m) :
    Paged m.memory ∧ ∀ pfn, Covered m.memory pfn ↔ pfn * 4096 ∈ MeminfoLimit.bytes mi.banks := by
  have hs := hinit.spaced
  have hpages : ∀ x y, x / 4096 = y / 4096 → x ∈ MemblockTable.bytes m.memory →
      y ∈ MemblockTable.bytes m.memory := by
    rw [hinit.bytes_eq]
    exact fun x y hxy => bytes_page h.mem_whole hxy
  have hregion : ∀ i < m.memory.cnt, 4096 ∣ (m.memory.regions i).base ∧
      4096 ∣ (m.memory.regions i).base + (m.memory.regions i).size := by
    intro i hi
    rcases Nat.eq_zero_or_pos mi.nrBanks with hzero | hpos
    · rw [hinit.initial hzero] at hi ⊢
      have hone : i = 0 := Nat.lt_one_iff.mp hi
      rw [hone]
      decide
    · refine region_dvd hs hi (hs.full (fun hd => ?_) hi) hpages
      have hnone := bytes_dummy hd
      rw [hinit.bytes_eq] at hnone
      have hfirst : (mi.bank 0).start ∈ MeminfoLimit.bytes mi.banks :=
        ⟨mi.bank 0, mem_banks.mpr ⟨0, hpos, rfl⟩, le_rfl,
          Nat.lt_add_of_pos_right (h.whole 0 hpos).pos⟩
      rw [hnone] at hfirst
      exact Set.notMem_empty _ hfirst
  have hentries : ∀ r ∈ entries m.memory, ∃ i < m.memory.cnt, m.memory.regions i = r := by
    intro r hr
    obtain ⟨i, hi, heq⟩ := List.mem_map.mp hr
    exact ⟨i, List.mem_range.mp hi, heq⟩
  have hwhole : ∀ r ∈ entries m.memory,
      4096 ∣ r.base ∧ 4096 ∣ r.size ∧ r.base + r.size < 2 ^ 32 := by
    intro r hr
    obtain ⟨i, hi, rfl⟩ := hentries r hr
    obtain ⟨hbase, hend⟩ := hregion i hi
    exact ⟨hbase, (Nat.dvd_add_right hbase).mp hend, hs.fits i hi⟩
  refine ⟨⟨hwhole, ?_⟩, fun pfn => ?_⟩
  · rw [entries, List.pairwise_map]
    refine List.pairwise_lt_range.imp_of_mem fun {i j} _ hj hij => ?_
    exact (Nat.le_succ _).trans (hs.apart_lt hij (List.mem_range.mp hj))
  · rw [← hinit.bytes_eq]
    constructor
    · rintro ⟨r, hr, hbase, hend⟩
      obtain ⟨i, hi, rfl⟩ := hentries r hr
      exact ⟨i, hi, hbase, by rw [Region.last]; omega⟩
    · rintro ⟨i, hi, hbase, hend⟩
      have hmem : m.memory.regions i ∈ entries m.memory :=
        List.mem_map.mpr ⟨i, List.mem_range.mpr hi, rfl⟩
      refine ⟨_, hmem, hbase, ?_⟩
      obtain ⟨-, hend'⟩ := pfns_whole (hwhole _ hmem)
      rw [Region.last] at hend
      omega

/-- What `find_limits` makes of some banks. -/
structure Limits (l : List Membank) (limits : ℕ × ℕ × ℕ) : Prop where
  /-- The first limit is a word. -/
  small : limits.1 < 2 ^ 32
  /-- No bank starts below the first limit. -/
  first : ∀ b ∈ l, limits.1 ≤ bankPfnStart b
  /-- The low banks do not end above all of them. -/
  order : limits.2.1 ≤ limits.2.2
  /-- No bank ends above the last limit. -/
  last : ∀ b ∈ l, bankPfnEnd b ≤ limits.2.2
  /-- It is not above all ends. -/
  reached : ∀ top, (∀ b ∈ l, bankPfnEnd b ≤ top) → limits.2.2 ≤ top

/-- The first limit falls to the starts of the banks. -/
theorem findLimitsFrom_first (limits : ℕ × ℕ × ℕ) :
    (findLimitsFrom limits l).1 ≤ limits.1 ∧
      ∀ b ∈ l, (findLimitsFrom limits l).1 ≤ bankPfnStart b := by
  induction l generalizing limits with
  | nil => exact ⟨le_rfl, fun _ hb => by cases hb⟩
  | cons b rest ih =>
    rw [findLimitsFrom]
    obtain ⟨hle, hrest⟩ := ih (if bankPfnStart b < limits.1 then bankPfnStart b else limits.1,
      if ¬b.highmem ∧ limits.2.1 < bankPfnEnd b then bankPfnEnd b else limits.2.1,
      if limits.2.2 < bankPfnEnd b then bankPfnEnd b else limits.2.2)
    have hmin : (if bankPfnStart b < limits.1 then bankPfnStart b else limits.1) ≤ bankPfnStart b ∧
        (if bankPfnStart b < limits.1 then bankPfnStart b else limits.1) ≤ limits.1 := by
      split_ifs <;> omega
    refine ⟨hle.trans hmin.2, fun a ha => ?_⟩
    rcases List.mem_cons.mp ha with rfl | ha
    · exact hle.trans hmin.1
    · exact hrest a ha

/-- The limits stay in order. -/
theorem findLimitsFrom_order (limits : ℕ × ℕ × ℕ) (horder : limits.2.1 ≤ limits.2.2) :
    (findLimitsFrom limits l).2.1 ≤ (findLimitsFrom limits l).2.2 := by
  induction l generalizing limits with
  | nil => exact horder
  | cons b rest ih =>
    rw [findLimitsFrom]
    refine ih _ ?_
    dsimp only
    split_ifs <;> omega

/-- The last limit rises to the ends of the banks. -/
theorem findLimitsFrom_last (limits : ℕ × ℕ × ℕ) :
    limits.2.2 ≤ (findLimitsFrom limits l).2.2 ∧
      (∀ b ∈ l, bankPfnEnd b ≤ (findLimitsFrom limits l).2.2) ∧
      ∀ top, limits.2.2 ≤ top → (∀ b ∈ l, bankPfnEnd b ≤ top) →
        (findLimitsFrom limits l).2.2 ≤ top := by
  induction l generalizing limits with
  | nil => exact ⟨le_rfl, fun _ hb => (by cases hb), fun _ htop _ => htop⟩
  | cons b rest ih =>
    rw [findLimitsFrom]
    obtain ⟨hle, hrest, htop⟩ := ih (if bankPfnStart b < limits.1 then bankPfnStart b else limits.1,
      if ¬b.highmem ∧ limits.2.1 < bankPfnEnd b then bankPfnEnd b else limits.2.1,
      if limits.2.2 < bankPfnEnd b then bankPfnEnd b else limits.2.2)
    have hmax : bankPfnEnd b ≤ (if limits.2.2 < bankPfnEnd b then bankPfnEnd b else limits.2.2) ∧
        limits.2.2 ≤ (if limits.2.2 < bankPfnEnd b then bankPfnEnd b else limits.2.2) := by
      split_ifs <;> omega
    refine ⟨hmax.2.trans hle, fun a ha => ?_, fun top h0 hall => htop top ?_ fun a ha =>
      hall a (List.mem_cons_of_mem b ha)⟩
    · rcases List.mem_cons.mp ha with rfl | ha
      · exact hmax.1.trans hle
      · exact hrest a ha
    · have := hall b List.mem_cons_self
      dsimp only
      split_ifs <;> omega

/-- `find_limits`. -/
theorem findLimits_limits (mi : Meminfo) : Limits mi.banks (findLimits mi) :=
  ⟨(findLimitsFrom_first _).1.trans_lt (by decide), (findLimitsFrom_first _).2, findLimitsFrom_order _ le_rfl, (findLimitsFrom_last _).2.1,
    fun top => (findLimitsFrom_last _).2.2 top (Nat.zero_le _)⟩

/-- The array is full and its last bank straddles the lowmem limit, so its upper part is ignored. -/
def Truncated (limit : ℕ) (mi : Meminfo) : Prop :=
  mi.nrBanks = maxBanks ∧ ∃ b ∈ mi.banks, (∀ a ∈ mi.banks, a.start ≤ b.start) ∧ Straddles limit b

/-- The frame numbers of a bank that does not wrap. -/
theorem bankPfn_eq {b : Membank} (hfits : b.start + b.size < 2 ^ 32) :
    bankPfnStart b = b.start / 4096 ∧ bankPfnEnd b = (b.start + b.size) / 4096 := by
  have hpage : ∀ x : ℕ, x >>> 12 = x / 4096 := fun x => Nat.shiftRight_eq_div_pow x 12
  rw [bankPfnStart, bankPfnEnd, hpage, hpage, wrap_of_lt hfits]
  exact ⟨rfl, rfl⟩

/-- With the last bank cut at the limit, a page lies beyond the last limit. -/
theorem truncated_beyond {limit n : ℕ} {highmem : Bool} {limits : ℕ × ℕ × ℕ} (hwhole : ∀ b ∈ l, Whole b)
    (hapart : Apart l) (hn : maxBanks ≤ n) (hlimits : Limits (divide limit n highmem l) limits)
    {b : Membank} (hb : b ∈ l) (hlast : ∀ a ∈ l, a.start ≤ b.start) (hcross : Straddles limit b) :
    limits.2.2 ≤ limit / 4096 ∧ limit / 4096 * 4096 ∈ MeminfoLimit.bytes l := by
  obtain ⟨hlow, hhigh⟩ := id hcross
  have hends : ∀ a ∈ l, ¬Straddles limit a → a.start + a.size ≤ limit := by
    intro a ha hnot
    have hle := hlast a ha
    rw [Straddles, not_and_or, not_lt, not_lt] at hnot
    omega
  have hcut := @divide_cut _ _ _ highmem hn hends
  have hfits := hapart.fits b hb
  refine ⟨hlimits.reached _ fun a ha => ?_, b, hb, ?_, ?_⟩
  · have hle := hcut a ha
    rw [(bankPfn_eq (by omega)).2]
    exact Nat.div_le_div_right hle
  · obtain ⟨p, hp⟩ := (hwhole b hb).start_dvd
    omega
  · omega

/-- With the end of the last bank kept, no page lies beyond the last limit. -/
theorem kept_inside {limit n : ℕ} {highmem : Bool} {limits : ℕ × ℕ × ℕ} (hwhole : ∀ b ∈ l, Whole b)
    (hfits : ∀ b ∈ l, b.start + b.size < 2 ^ 32) (hsorted : l.Pairwise fun a b => a.start + a.size ≤ b.start)
    (hlimits : Limits (divide limit n highmem l) limits)
    (hroom : ∀ b ∈ l, (∀ a ∈ l, a.start ≤ b.start) → Straddles limit b → n < maxBanks) {pfn : ℕ}
    (hpfn : pfn * 4096 ∈ MeminfoLimit.bytes l) : pfn < limits.2.2 := by
  obtain ⟨c, hc, hle, hlt⟩ := hpfn
  obtain ⟨front, b, rfl⟩ : ∃ front b, l = front ++ [b] :=
    ⟨l.dropLast, l.getLast (List.ne_nil_of_mem hc), (List.dropLast_append_getLast _).symm⟩
  have hb : b ∈ front ++ [b] := List.mem_append_right _ List.mem_cons_self
  have hbefore : ∀ a ∈ front ++ [b], a.start ≤ b.start ∧ a.start + a.size ≤ b.start + b.size := by
    intro a ha
    rcases List.mem_append.mp ha with ha | ha
    · have := (List.pairwise_append.mp hsorted).2.2 a ha b List.mem_cons_self
      omega
    · rw [List.mem_singleton.mp ha]
      exact ⟨le_rfl, le_rfl⟩
  obtain ⟨a, ha, hend⟩ := @divide_ends _ _ _ _ highmem hsorted hb (hroom b hb fun a ha => (hbefore a ha).1)
  have hfit := hfits b hb
  have hlast := hlimits.last a ha
  rw [(bankPfn_eq (by omega)).2, hend] at hlast
  obtain ⟨p, hp⟩ := (hwhole b hb).start_dvd
  obtain ⟨q, hq⟩ := (hwhole b hb).size_dvd
  have := (hbefore c hc).2
  omega

/-- The arithmetic on the holes of the zones is exact exactly when each bank comes to rest inside the
array while the banks are sorted, and the array is not full with a last bank that straddles the
lowmem limit. -/
theorem zoneHoles_iff (depth pgd cacheid : ℕ) (arg : Option ℕ) (ranges : List (ℕ × ℕ)) (mi : Meminfo)
    (haccept : exec accept emptyMeminfo ranges = some mi) (hapart : Apart mi.banks) :
    (∃ memory minPfn maxLow maxHigh,
        bootLimits depth pgd (vmallocMin arg) cacheid mi = some (memory, minPfn, maxLow, maxHigh) ∧
          HolesExact memory minPfn maxLow maxHigh) ↔
      RestsInside mi.bank mi.nrBanks (mi.nrBanks / 2) ∧
        ¬Truncated (lowmemLimit (vmallocMin arg)) mi := by
  have h := exec_recorded haccept
  by_cases hrests : RestsInside mi.bank mi.nrBanks (mi.nrBanks / 2)
  · obtain ⟨mi', m, hfill, hinit⟩ := armMemblockInit_initialised depth pgd h hapart hrests
    have hwhole : ∀ b ∈ mi'.banks, Whole b := fun b hb => h.mem_whole b (hinit.perm.subset hb)
    have hapart' : Apart mi'.banks := hapart.perm hinit.perm
    have hcount := h.count
    obtain ⟨mi'', hcheck, hbanks⟩ := @sanityCheckMeminfo_divides arg mi' (maxBanks + 1) cacheid
      (fun b hb => ⟨(hwhole b hb).start_lt, (hapart'.fits b hb).le⟩)
      (by rw [hinit.count]; omega)
    have hlimits := findLimits_limits mi''
    rw [hbanks] at hlimits
    have hboot : bootLimits depth pgd (vmallocMin arg) cacheid mi = some (m.memory, findLimits mi'') := by
      rw [bootLimits, hfill, Option.bind_some, hcheck, Option.map_some]
    obtain ⟨hpaged, hcovered⟩ := initialised_paged h hinit
    rw [← bytes_perm hinit.perm] at hcovered
    have hmin : ∀ pfn, Covered m.memory pfn → (findLimits mi'').1 ≤ pfn := by
      intro pfn hpfn
      obtain ⟨b, hb, hle, -⟩ := (hcovered pfn).mp hpfn
      obtain ⟨a, ha, hstart⟩ := @divide_starts _ b (lowmemLimit (vmallocMin arg)) mi'.nrBanks false hb
      have hpage : bankPfnStart a = a.start / 4096 := Nat.shiftRight_eq_div_pow _ 12
      have hfirst := hlimits.first a ha
      rw [hpage, hstart] at hfirst
      omega
    have hhigh : (findLimits mi'').2.2 ≤ 2 ^ 20 := hlimits.reached _ fun a _ => by
      have hpage : bankPfnEnd a = wrap 32 (a.start + a.size) / 4096 := Nat.shiftRight_eq_div_pow _ 12
      have := wrap_lt 32 (a.start + a.size)
      omega
    have hexact := holesExact_iff hpaged hmin hlimits.small hlimits.order hhigh
    constructor
    · rintro ⟨memory, minPfn, maxLow, maxHigh, hboot', hholes⟩
      rw [hboot, Option.some.injEq, Prod.mk.injEq] at hboot'
      obtain ⟨rfl, hfound⟩ := hboot'
      refine ⟨hrests, ?_⟩
      rintro ⟨hfull, b, hb, hlast, hcross⟩
      obtain ⟨hle, hpage⟩ := truncated_beyond hwhole hapart' (hinit.count.trans hfull).ge hlimits
        (hinit.perm.symm.subset hb) (fun a ha => hlast a (hinit.perm.subset ha)) hcross
      rw [hfound] at hexact hle
      have := hexact.mp hholes _ ((hcovered _).mpr hpage)
      omega
    · rintro ⟨-, hnot⟩
      refine ⟨_, _, _, _, hboot, hexact.mpr fun pfn hpfn => ?_⟩
      refine kept_inside hwhole hapart'.fits hinit.sorted hlimits (fun b hb hlast hcross => ?_)
        ((hcovered pfn).mp hpfn)
      rw [hinit.count]
      refine lt_of_le_of_ne hcount fun hfull => hnot ⟨hfull, b, hinit.perm.subset hb, fun a ha => ?_, hcross⟩
      exact hlast a (hinit.perm.symm.subset ha)
  · refine iff_of_false ?_ fun hboth => hrests hboth.1
    rintro ⟨memory, minPfn, maxLow, maxHigh, hboot, -⟩
    rw [bootLimits, armMemblockInit_escapes depth pgd h hrests, Option.bind_none] at hboot
    cases hboot

/-- A bank of low memory, and behind a hole one of high memory. -/
def lowAndHigh : List (ℕ × ℕ) := [(0x50000000, 0x1000000), (0x70000000, 0x1000000)]

/-- The banks recorded for them. -/
def lowAndHighMeminfo : Meminfo := (exec accept emptyMeminfo lowAndHigh).getD emptyMeminfo

/-- The holes of both zones are subtracted exactly. -/
theorem zoneHoles_iff_lowAndHigh : ∃ memory minPfn maxLow maxHigh,
    bootLimits 0 0x50004000 (vmallocMin none) 0 lowAndHighMeminfo =
        some (memory, minPfn, maxLow, maxHigh) ∧
      HolesExact memory minPfn maxLow maxHigh := by
  have hsome : (exec accept emptyMeminfo lowAndHigh).isSome = true := by decide +kernel
  obtain ⟨mi, hmi⟩ := Option.isSome_iff_exists.mp hsome
  have haccept : exec accept emptyMeminfo lowAndHigh = some lowAndHighMeminfo := by
    rw [lowAndHighMeminfo, hmi]
    rfl
  have htwo : lowAndHighMeminfo.nrBanks = 2 := by decide +kernel
  refine (zoneHoles_iff 0 0x50004000 0 none lowAndHigh lowAndHighMeminfo haccept
    ⟨by decide +kernel, by decide +kernel⟩).mpr ⟨by decide +kernel, ?_⟩
  rintro ⟨hfull, -⟩
  rw [htwo] at hfull
  exact absurd hfull (by decide)

/-- Eight banks in descending order, of which the first one straddles the default limit. -/
def descending : List (ℕ × ℕ) :=
  (0x68000000, 0x1000000) :: (List.range 7).map fun k => (0x50000000 + (6 - k) * 0x1000000, 0x1000000)

/-- The banks recorded for them. -/
def descendingMeminfo : Meminfo := (exec accept emptyMeminfo descending).getD emptyMeminfo

/-- All of them are accepted and no bank wraps or meets another one; the upper part of the first one is
not in the banks, but it is in the memory table, so the 2048 pages of it are subtracted from a high
zone of no pages. -/
theorem descending_counterexample :
    exec accept emptyMeminfo descending = some descendingMeminfo ∧ Apart descendingMeminfo.banks ∧
      (bootLimits 0 0x50004000 (vmallocMin none) 0 descendingMeminfo).map
          (fun r => ((armBootmemFree r.1 r.2.1 r.2.2.1 r.2.2.2).1,
            (armBootmemFree r.1 r.2.1 r.2.2.1 r.2.2.2).2)) =
        some ([0x18800, 0, 0], [0x11000, 2 ^ 64 - 0x800, 0]) ∧
      ¬∃ memory minPfn maxLow maxHigh,
        bootLimits 0 0x50004000 (vmallocMin none) 0 descendingMeminfo =
            some (memory, minPfn, maxLow, maxHigh) ∧
          HolesExact memory minPfn maxLow maxHigh := by
  have hsome : (exec accept emptyMeminfo descending).isSome = true := by decide +kernel
  obtain ⟨mi, hmi⟩ := Option.isSome_iff_exists.mp hsome
  have hbad : (bootLimits 0 0x50004000 (vmallocMin none) 0 descendingMeminfo).all (fun r =>
      decide (wrapSub 64 (zoneSizes r.2.1 r.2.2.1 r.2.2.2).2
          ((entries r.1).foldl (holeStep r.2.2.1) (zoneSizes r.2.1 r.2.2.1 r.2.2.2)).2 ≠
        pagesIn r.1 r.2.2.1 r.2.2.2)) = true := by decide +kernel
  refine ⟨by rw [descendingMeminfo, hmi]; rfl, ⟨by decide +kernel, by decide +kernel⟩, by decide +kernel,
    ?_⟩
  rintro ⟨memory, minPfn, maxLow, maxHigh, hboot, hexact⟩
  rw [hboot, Option.all_some, decide_eq_true_eq] at hbad
  exact hbad hexact.high

end BiscuitOS.ZoneHoles
