import BiscuitOS.MemblockModel
import BiscuitOS.BootmemModel

/-!
# Releasing high memory

`free_area` and `free_highpages` of `arch/arm/mm/init.c` with the frame numbers
of memblock regions in `include/linux/memblock.h`. A run is the list of frames
given to `__free_page`, in order, and the new `totalhigh_pages`. The sweep over
the reserved regions is a list of calls of `free_area`.
-/

namespace BiscuitOS.HighmemSweep

open MachineWord MemblockModel BootmemModel

/-- `memblock_region_memory_base_pfn`. -/
def memoryBasePfn (r : Region) : ℕ := pfnUp r.base

/-- `memblock_region_memory_end_pfn`. -/
def memoryEndPfn (r : Region) : ℕ := pfnDown (wrap 64 (r.base + r.size))

/-- `memblock_region_reserved_base_pfn`. -/
def reservedBasePfn (r : Region) : ℕ := pfnDown r.base

/-- `memblock_region_reserved_end_pfn`. -/
def reservedEndPfn (r : Region) : ℕ := pfnUp (wrap 64 (r.base + r.size))

/-- The entries of a table, in the order of `for_each_memblock`. -/
def entries (t : MemblockType) : List Region := (List.range t.cnt).map t.regions

/-- The frames that `free_area` frees. -/
def freeArea (area : ℕ × ℕ) : List ℕ := List.range' area.1 (area.2 - area.1)

/-- `pages` in `free_area`, an `unsigned int` returned as an `int`. -/
def freeAreaPages (area : ℕ × ℕ) : ℤ := toSigned 32 (wrap 32 (freeArea area).length)

/-- The loop over the reserved regions: the areas it frees and the `start` it leaves. -/
def reservedSweep (stop : ℕ) : ℕ → List Region → List (ℕ × ℕ) × ℕ
  | start, [] => ([], start)
  | start, res :: rest =>
    let resStart := reservedBasePfn res
    let resEnd := reservedEndPfn res
    if resEnd < start then reservedSweep stop start rest
    else
      let resStart := if resStart < start then start else resStart
      let resStart := if stop < resStart then stop else resStart
      let resEnd := if stop < resEnd then stop else resEnd
      let area := if resStart ≠ start then [(start, resStart)] else []
      if resEnd = stop then (area, resEnd)
      else
        let later := reservedSweep stop resEnd rest
        (area ++ later.1, later.2)

/-- The loop over the memory regions: the areas it frees. -/
def memorySweep (maxLow : ℕ) (reserved : List Region) : List Region → List (ℕ × ℕ)
  | [] => []
  | mem :: rest =>
    let start := memoryBasePfn mem
    let stop := memoryEndPfn mem
    if stop ≤ maxLow then memorySweep maxLow reserved rest
    else
      let start := if start < maxLow then maxLow else start
      let swept := reservedSweep stop start reserved
      swept.1 ++ (if swept.2 < stop then [(swept.2, stop)] else []) ++
        memorySweep maxLow reserved rest

/-- `free_highpages` with the old `totalhigh_pages`: the frames freed and the new one. -/
def freeHighpages (memory reserved : MemblockType) (maxLow total : ℕ) : List ℕ × ℕ :=
  let areas := memorySweep maxLow (entries reserved) (entries memory)
  (areas.flatMap freeArea,
    areas.foldl (fun total area => wrap 64 (total + toUnsigned 64 (freeAreaPages area))) total)

/-- A frame lies wholly in a region. -/
def Within (r : Region) (pfn : ℕ) : Prop :=
  r.base ≤ pfn * 4096 ∧ (pfn + 1) * 4096 ≤ r.base + r.size

/-- A region touches a frame. -/
def Touches (r : Region) (pfn : ℕ) : Prop := ∃ a, r.base ≤ a ∧ a < r.base + r.size ∧ a / 4096 = pfn

/-- A table of physical memory, sorted and disjoint. -/
structure WellFormed (t : MemblockType) : Prop where
  /-- Its regions are physical. -/
  fits : ∀ r ∈ entries t, r.base + r.size ≤ 2 ^ 32
  /-- Each one ends before the next ones start. -/
  apart : (entries t).Pairwise fun r r' => r.base + r.size ≤ r'.base
  /-- None is empty, but for the dummy of a table without regions. -/
  filled : ∀ r ∈ entries t, 0 < r.size ∨ r.base = 0

/-- High memory is released as it is to be. -/
structure Released (memory reserved : MemblockType) (maxLow total : ℕ) (result : List ℕ × ℕ) :
    Prop where
  /-- No frame is freed twice. -/
  once : result.1.Nodup
  /-- The frames freed are the free ones of high memory. -/
  frames : ∀ pfn, pfn ∈ result.1 ↔ maxLow ≤ pfn ∧ (∃ m ∈ entries memory, Within m pfn) ∧
    ∀ r ∈ entries reserved, ¬Touches r pfn
  /-- They are counted. -/
  counted : result.2 = wrap 64 (total + result.1.length)

variable {memory reserved : MemblockType} {r : Region} {res rest mems : List Region}
  {start stop maxLow pfn total : ℕ}

/-- The frames of a region that is physical. -/
theorem pfns_eq (hfits : r.base + r.size ≤ 2 ^ 32) :
    memoryBasePfn r = (r.base + 4095) / 4096 ∧ memoryEndPfn r = (r.base + r.size) / 4096 ∧
      reservedBasePfn r = r.base / 4096 ∧
      reservedEndPfn r = (r.base + r.size + 4095) / 4096 := by
  have hsum : wrap 64 (r.base + r.size) = r.base + r.size := wrap_of_lt (by omega)
  have hbase : wrap 64 (r.base + 4095) = r.base + 4095 := wrap_of_lt (by omega)
  have hend : wrap 64 (r.base + r.size + 4095) = r.base + r.size + 4095 := wrap_of_lt (by omega)
  rw [memoryBasePfn, memoryEndPfn, reservedBasePfn, reservedEndPfn, hsum, pfnUp, pfnUp, pfnDown,
    pfnDown, hbase, hend]
  exact ⟨rfl, rfl, rfl, rfl⟩

/-- The frames wholly in a memory region. -/
theorem within_iff (hfits : r.base + r.size ≤ 2 ^ 32) :
    Within r pfn ↔ memoryBasePfn r ≤ pfn ∧ pfn < memoryEndPfn r := by
  obtain ⟨h1, h2, -, -⟩ := pfns_eq hfits
  rw [h1, h2, Within]
  omega

/-- The frames touched by a reserved region. -/
theorem touches_iff (hfits : r.base + r.size ≤ 2 ^ 32) (hfilled : 0 < r.size ∨ r.base = 0) :
    Touches r pfn ↔ reservedBasePfn r ≤ pfn ∧ pfn < reservedEndPfn r := by
  obtain ⟨-, -, h3, h4⟩ := pfns_eq hfits
  rw [h3, h4, Touches]
  constructor
  · rintro ⟨a, hlow, hhigh, rfl⟩
    omega
  · rintro ⟨hlow, hhigh⟩
    rcases le_total r.base (pfn * 4096) with hle | hle
    · exact ⟨pfn * 4096, by omega, by omega, by omega⟩
    · exact ⟨r.base, by omega, by omega, by omega⟩

/-- The frames of an area. -/
theorem mem_freeArea {area : ℕ × ℕ} : pfn ∈ freeArea area ↔ area.1 ≤ pfn ∧ pfn < area.2 := by
  rw [freeArea, List.mem_range'_1]
  omega

/-- The frames that a list of areas frees. -/
def frames (areas : List (ℕ × ℕ)) : List ℕ := areas.flatMap freeArea

/-- The frames of a call that is not made for an empty area. -/
theorem mem_frames_area {a b : ℕ} {p : Prop} [Decidable p] :
    pfn ∈ frames (if p then [(a, b)] else []) ↔ p ∧ a ≤ pfn ∧ pfn < b := by
  by_cases hp : p
  · rw [if_pos hp, frames, List.flatMap_cons, List.flatMap_nil, List.append_nil, mem_freeArea]
    exact (and_iff_right hp).symm
  · rw [if_neg hp]
    exact ⟨fun h => (List.not_mem_nil h).elim, fun h => absurd h.1 hp⟩

/-- The frames of areas one after the other. -/
theorem frames_append (a b : List (ℕ × ℕ)) : frames (a ++ b) = frames a ++ frames b :=
  List.flatMap_append

/-- The clipped bounds of a reserved region. -/
theorem clip_eq (low high start stop : ℕ) :
    (if stop < (if low < start then start else low) then stop else if low < start then start else low) =
        min stop (max low start) ∧
      (if stop < high then stop else high) = min stop high := by
  constructor
  · split_ifs <;> omega
  · split_ifs <;> omega

/-- A sweep over a reserved region that it does not skip. -/
theorem reservedSweep_cons (stop start : ℕ) (r : Region) (rest : List Region)
    (hskip : ¬reservedEndPfn r < start) :
    reservedSweep stop start (r :: rest) =
      if min stop (reservedEndPfn r) = stop then
        (if min stop (max (reservedBasePfn r) start) ≠ start then
          [(start, min stop (max (reservedBasePfn r) start))] else [], stop)
      else
        ((if min stop (max (reservedBasePfn r) start) ≠ start then
          [(start, min stop (max (reservedBasePfn r) start))] else []) ++
            (reservedSweep stop (reservedEndPfn r) rest).1,
          (reservedSweep stop (reservedEndPfn r) rest).2) := by
  obtain ⟨hlow, hhigh⟩ := clip_eq (reservedBasePfn r) (reservedEndPfn r) start stop
  rw [reservedSweep, if_neg hskip]
  dsimp only
  rw [hlow, hhigh]
  by_cases hstop : min stop (reservedEndPfn r) = stop
  · rw [if_pos hstop, if_pos hstop, hstop]
  · have hend : min stop (reservedEndPfn r) = reservedEndPfn r := by omega
    rw [if_neg hstop, if_neg hstop, hend]

/-- A sweep frees the frames in front of the reserved ones, and leaves the ones behind. -/
theorem reservedSweep_frames (stop start : ℕ)
    (hsorted : res.Pairwise fun r r' => reservedBasePfn r ≤ reservedBasePfn r')
    (hends : ∀ r ∈ res, reservedBasePfn r ≤ reservedEndPfn r) :
    (pfn ∈ frames (reservedSweep stop start res).1 ∨
        (reservedSweep stop start res).2 ≤ pfn ∧ pfn < stop) ↔
      start ≤ pfn ∧ pfn < stop ∧ ∀ r ∈ res, ¬(reservedBasePfn r ≤ pfn ∧ pfn < reservedEndPfn r) := by
  induction res generalizing start with
  | nil =>
    rw [reservedSweep]
    refine ⟨fun h => ?_, fun h => .inr ⟨h.1, h.2.1⟩⟩
    rcases h with h | h
    · exact (List.not_mem_nil h).elim
    · exact ⟨h.1, h.2, fun r hr => (List.not_mem_nil hr).elim⟩
  | cons r rest ih =>
    obtain ⟨hfirst, hrest⟩ := List.pairwise_cons.mp hsorted
    have hr := hends r List.mem_cons_self
    have hlater := fun start => ih start hrest (fun q hq => hends q (List.mem_cons_of_mem _ hq))
    have hall : (∀ q ∈ r :: rest, ¬(reservedBasePfn q ≤ pfn ∧ pfn < reservedEndPfn q)) ↔
        ¬(reservedBasePfn r ≤ pfn ∧ pfn < reservedEndPfn r) ∧
          ∀ q ∈ rest, ¬(reservedBasePfn q ≤ pfn ∧ pfn < reservedEndPfn q) := List.forall_mem_cons
    have hbefore : pfn < reservedBasePfn r →
        ∀ q ∈ rest, ¬(reservedBasePfn q ≤ pfn ∧ pfn < reservedEndPfn q) := fun hlt q hq hin => by
      have := hfirst q hq
      omega
    rw [hall]
    by_cases hskip : reservedEndPfn r < start
    · rw [reservedSweep, if_pos hskip, hlater]
      exact ⟨fun h => ⟨h.1, h.2.1, by omega, h.2.2⟩, fun h => ⟨h.1, h.2.1, h.2.2.2⟩⟩
    · rw [reservedSweep_cons stop start r rest hskip]
      generalize reservedBasePfn r = low at hr hbefore ⊢
      generalize reservedEndPfn r = high at hr hskip ⊢
      by_cases hstop : min stop high = stop
      · rw [if_pos hstop, mem_frames_area]
        constructor
        · rintro (h | h)
          · exact ⟨by omega, by omega, by omega, hbefore (by omega)⟩
          · omega
        · rintro ⟨h1, h2, h3, -⟩
          exact .inl ⟨by omega, by omega, by omega⟩
      · rw [if_neg hstop]
        dsimp only
        rw [frames_append, List.mem_append, mem_frames_area, or_assoc, hlater]
        constructor
        · rintro (h | h)
          · exact ⟨by omega, by omega, by omega, hbefore (by omega)⟩
          · exact ⟨by omega, h.2.1, by omega, h.2.2⟩
        · rintro ⟨h1, h2, h3, h4⟩
          rcases lt_or_ge pfn low with hlt | hge
          · exact .inl ⟨by omega, by omega, by omega⟩
          · exact .inr ⟨by omega, h2, h4⟩

/-- The frames of one area are in order. -/
theorem pairwise_frames_area (a b : ℕ) (p : Prop) [Decidable p] :
    (frames (if p then [(a, b)] else [])).Pairwise (· < ·) := by
  by_cases hp : p
  · rw [if_pos hp, frames, List.flatMap_cons, List.flatMap_nil, List.append_nil, freeArea]
    exact List.pairwise_lt_range'
  · rw [if_neg hp]
    exact .nil

/-- A sweep frees frames in order, from its start to where it ends. -/
theorem reservedSweep_order (stop start : ℕ) (hends : ∀ r ∈ res, reservedBasePfn r ≤ reservedEndPfn r) :
    (start ≤ stop → start ≤ (reservedSweep stop start res).2) ∧
      (∀ p ∈ frames (reservedSweep stop start res).1,
        start ≤ p ∧ p < stop ∧ p < (reservedSweep stop start res).2) ∧
      (frames (reservedSweep stop start res).1).Pairwise (· < ·) ∧
      ∀ a ∈ (reservedSweep stop start res).1, a.2 ≤ stop := by
  induction res generalizing start with
  | nil =>
    rw [reservedSweep]
    exact ⟨fun _ => le_rfl, fun p hp => (List.not_mem_nil hp).elim, .nil,
      fun a ha => (List.not_mem_nil ha).elim⟩
  | cons r rest ih =>
    have hr := hends r List.mem_cons_self
    have hlater := fun start => ih start (fun q hq => hends q (List.mem_cons_of_mem _ hq))
    by_cases hskip : reservedEndPfn r < start
    · rw [reservedSweep, if_pos hskip]
      exact hlater start
    · rw [reservedSweep_cons stop start r rest hskip]
      generalize reservedBasePfn r = low at hr ⊢
      generalize reservedEndPfn r = high at hr hskip ⊢
      have hcall : ∀ a ∈ (if min stop (max low start) ≠ start then [(start, min stop (max low start))]
          else []), a.2 ≤ stop := by
        intro a ha
        split_ifs at ha
        · rw [List.mem_singleton.mp ha]
          exact Nat.min_le_left _ _
        · exact (List.not_mem_nil ha).elim
      by_cases hstop : min stop high = stop
      · rw [if_pos hstop]
        refine ⟨fun h => h, fun p hp => ?_, pairwise_frames_area _ _ _, hcall⟩
        have hin := mem_frames_area.mp hp
        dsimp only
        omega
      · rw [if_neg hstop]
        obtain ⟨hle, hmem, hpairs, hareas⟩ := hlater high
        dsimp only
        refine ⟨fun h => by omega, fun p hp => ?_, ?_, fun a ha => ?_⟩
        · rw [frames_append, List.mem_append, mem_frames_area] at hp
          rcases hp with hp | hp
          · omega
          · have := hmem p hp
            omega
        · rw [frames_append, List.pairwise_append]
          refine ⟨pairwise_frames_area _ _ _, hpairs, fun p hp q hq => ?_⟩
          have hp := mem_frames_area.mp hp
          have hq := hmem q hq
          omega
        · rcases List.mem_append.mp ha with ha | ha
          · exact hcall a ha
          · exact hareas a ha

/-- The areas freed for one memory region. -/
def regionAreas (maxLow : ℕ) (reserved : List Region) (m : Region) : List (ℕ × ℕ) :=
  if memoryEndPfn m ≤ maxLow then []
  else
    (reservedSweep (memoryEndPfn m) (max (memoryBasePfn m) maxLow) reserved).1 ++
      if (reservedSweep (memoryEndPfn m) (max (memoryBasePfn m) maxLow) reserved).2 < memoryEndPfn m then
        [((reservedSweep (memoryEndPfn m) (max (memoryBasePfn m) maxLow) reserved).2, memoryEndPfn m)]
      else []

/-- The loop frees the areas of each memory region. -/
theorem memorySweep_eq (maxLow : ℕ) (reserved mems : List Region) :
    memorySweep maxLow reserved mems = mems.flatMap (regionAreas maxLow reserved) := by
  induction mems with
  | nil => rfl
  | cons m rest ih =>
    have hstart : (if memoryBasePfn m < maxLow then maxLow else memoryBasePfn m) =
        max (memoryBasePfn m) maxLow := by
      split_ifs <;> omega
    rw [memorySweep, List.flatMap_cons, regionAreas, ← ih, hstart]
    by_cases hlow : memoryEndPfn m ≤ maxLow
    · rw [if_pos hlow, if_pos hlow, List.nil_append]
    · rw [if_neg hlow, if_neg hlow]

/-- The frames freed for one memory region. -/
theorem regionAreas_frames (m : Region)
    (hsorted : res.Pairwise fun r r' => reservedBasePfn r ≤ reservedBasePfn r')
    (hends : ∀ r ∈ res, reservedBasePfn r ≤ reservedEndPfn r) :
    pfn ∈ frames (regionAreas maxLow res m) ↔
      (memoryBasePfn m ≤ pfn ∧ pfn < memoryEndPfn m) ∧ maxLow ≤ pfn ∧
        ∀ r ∈ res, ¬(reservedBasePfn r ≤ pfn ∧ pfn < reservedEndPfn r) := by
  rw [regionAreas]
  by_cases hlow : memoryEndPfn m ≤ maxLow
  · rw [if_pos hlow]
    exact ⟨fun h => (List.not_mem_nil h).elim, fun h => by omega⟩
  · have hsweep := @reservedSweep_frames _ pfn (memoryEndPfn m) (max (memoryBasePfn m) maxLow) hsorted hends
    rw [if_neg hlow, frames_append, List.mem_append, mem_frames_area]
    generalize reservedSweep (memoryEndPfn m) (max (memoryBasePfn m) maxLow) res = swept at hsweep ⊢
    have hrest : (swept.2 < memoryEndPfn m ∧ swept.2 ≤ pfn ∧ pfn < memoryEndPfn m) ↔
        swept.2 ≤ pfn ∧ pfn < memoryEndPfn m := by omega
    rw [hrest, hsweep]
    exact ⟨fun h => ⟨⟨by omega, h.2.1⟩, by omega, h.2.2⟩, fun h => ⟨by omega, h.1.2, h.2.2⟩⟩

/-- They are freed in order. -/
theorem regionAreas_order (maxLow : ℕ) (m : Region)
    (hends : ∀ r ∈ res, reservedBasePfn r ≤ reservedEndPfn r) :
    (frames (regionAreas maxLow res m)).Pairwise (· < ·) ∧
      ∀ a ∈ regionAreas maxLow res m, a.2 ≤ memoryEndPfn m := by
  rw [regionAreas]
  by_cases hlow : memoryEndPfn m ≤ maxLow
  · rw [if_pos hlow]
    exact ⟨.nil, fun a ha => (List.not_mem_nil ha).elim⟩
  · obtain ⟨-, hmem, hpairs, hareas⟩ :=
      reservedSweep_order (memoryEndPfn m) (max (memoryBasePfn m) maxLow) hends
    rw [if_neg hlow]
    generalize reservedSweep (memoryEndPfn m) (max (memoryBasePfn m) maxLow) res = swept at *
    refine ⟨?_, fun a ha => ?_⟩
    · rw [frames_append, List.pairwise_append]
      refine ⟨hpairs, pairwise_frames_area _ _ _, fun p hp q hq => ?_⟩
      have hp := hmem p hp
      have hq := mem_frames_area.mp hq
      omega
    · rcases List.mem_append.mp ha with ha | ha
      · exact hareas a ha
      · split_ifs at ha
        · rw [List.mem_singleton.mp ha]
        · exact (List.not_mem_nil ha).elim

/-- The frames freed for some memory regions. -/
theorem mem_frames_flatMap {f : Region → List (ℕ × ℕ)} :
    pfn ∈ frames (mems.flatMap f) ↔ ∃ m ∈ mems, pfn ∈ frames (f m) := by
  simp only [frames, List.mem_flatMap]
  constructor
  · rintro ⟨a, ⟨m, hm, ha⟩, hp⟩
    exact ⟨m, hm, a, ha, hp⟩
  · rintro ⟨m, hm, a, ha, hp⟩
    exact ⟨a, ⟨m, hm, ha⟩, hp⟩

/-- All of them are freed in order. -/
theorem memorySweep_order (maxLow : ℕ)
    (hsorted : res.Pairwise fun r r' => reservedBasePfn r ≤ reservedBasePfn r')
    (hends : ∀ r ∈ res, reservedBasePfn r ≤ reservedEndPfn r)
    (hmems : mems.Pairwise fun m m' => memoryEndPfn m ≤ memoryBasePfn m') :
    (frames (mems.flatMap (regionAreas maxLow res))).Pairwise (· < ·) := by
  induction mems with
  | nil => exact .nil
  | cons m rest ih =>
    obtain ⟨hfirst, hrest⟩ := List.pairwise_cons.mp hmems
    rw [List.flatMap_cons, frames_append, List.pairwise_append]
    refine ⟨(regionAreas_order maxLow m hends).1, ih hrest, fun p hp q hq => ?_⟩
    have hp := ((regionAreas_frames m hsorted hends).mp hp).1
    obtain ⟨m', hm', hq⟩ := mem_frames_flatMap.mp hq
    have hq := ((regionAreas_frames m' hsorted hends).mp hq).1
    have := hfirst m' hm'
    omega

/-- The pages of a physical area are counted as they are. -/
theorem freeAreaPages_eq {area : ℕ × ℕ} (h : area.2 ≤ 2 ^ 20) :
    toUnsigned 64 (freeAreaPages area) = (freeArea area).length := by
  have hlen : (freeArea area).length ≤ 2 ^ 20 := by
    rw [freeArea, List.length_range']
    omega
  have hwrap : wrap 32 (freeArea area).length = (freeArea area).length := wrap_of_lt (by omega)
  have hsigned : toSigned 32 ((freeArea area).length : ℕ) = ((freeArea area).length : ℕ) :=
    toSigned_of_lt (by decide) (by omega)
  have hcast := toUnsigned_of_lt (w := 64) (x := ((freeArea area).length : ℤ))
    (Int.natCast_nonneg _) (by omega)
  rw [freeAreaPages, hwrap, hsigned]
  exact_mod_cast hcast

/-- The pages of physical areas add up. -/
theorem total_eq {areas : List (ℕ × ℕ)} (h : ∀ a ∈ areas, a.2 ≤ 2 ^ 20) (htotal : total < 2 ^ 64) :
    areas.foldl (fun total area => wrap 64 (total + toUnsigned 64 (freeAreaPages area))) total =
      wrap 64 (total + (frames areas).length) := by
  induction areas generalizing total with
  | nil => exact (wrap_of_lt htotal).symm
  | cons a rest ih =>
    rw [List.foldl_cons, ih (fun b hb => h b (List.mem_cons_of_mem _ hb)) (wrap_lt 64 _),
      freeAreaPages_eq (h a List.mem_cons_self), frames, frames, List.flatMap_cons, List.length_append,
      wrap, wrap, wrap, Nat.mod_add_mod, Nat.add_assoc]

/-- The frames of regions that are sorted. -/
theorem WellFormed.sorted {t : MemblockType} (h : WellFormed t) :
    ((entries t).Pairwise fun r r' => reservedBasePfn r ≤ reservedBasePfn r') ∧
      (∀ r ∈ entries t, reservedBasePfn r ≤ reservedEndPfn r) ∧
      (entries t).Pairwise fun m m' => memoryEndPfn m ≤ memoryBasePfn m' := by
  refine ⟨h.apart.imp_of_mem fun hr hr' hle => ?_, fun r hr => ?_,
    h.apart.imp_of_mem fun hr hr' hle => ?_⟩
  · rw [(pfns_eq (h.fits _ hr)).2.2.1, (pfns_eq (h.fits _ hr')).2.2.1]
    omega
  · rw [(pfns_eq (h.fits r hr)).2.2.1, (pfns_eq (h.fits r hr)).2.2.2]
    omega
  · rw [(pfns_eq (h.fits _ hr)).2.1, (pfns_eq (h.fits _ hr')).1]
    omega

/-- High memory is released exactly: each free frame once, and no other one. -/
theorem freeHighpages_released (memory reserved : MemblockType) (maxLow total : ℕ)
    (hmemory : WellFormed memory) (hreserved : WellFormed reserved) (htotal : total < 2 ^ 64) :
    Released memory reserved maxLow total (freeHighpages memory reserved maxLow total) := by
  obtain ⟨hsorted, hends, -⟩ := hreserved.sorted
  obtain ⟨-, -, hmems⟩ := hmemory.sorted
  have hframes : (freeHighpages memory reserved maxLow total).1 =
      frames ((entries memory).flatMap (regionAreas maxLow (entries reserved))) := by
    rw [freeHighpages, memorySweep_eq]
    rfl
  have hareas : ∀ a ∈ (entries memory).flatMap (regionAreas maxLow (entries reserved)),
      a.2 ≤ 2 ^ 20 := by
    intro a ha
    obtain ⟨m, hm, ha⟩ := List.mem_flatMap.mp ha
    have hle := (regionAreas_order maxLow m hends).2 a ha
    have hfits := hmemory.fits m hm
    rw [(pfns_eq hfits).2.1] at hle
    omega
  refine ⟨?_, fun pfn => ?_, ?_⟩
  · rw [hframes]
    exact (memorySweep_order maxLow hsorted hends hmems).nodup
  · rw [hframes, mem_frames_flatMap]
    have hfree : (∀ r ∈ entries reserved, ¬Touches r pfn) ↔
        ∀ r ∈ entries reserved, ¬(reservedBasePfn r ≤ pfn ∧ pfn < reservedEndPfn r) :=
      forall₂_congr fun r hr => not_congr (touches_iff (hreserved.fits r hr) (hreserved.filled r hr))
    rw [hfree]
    constructor
    · rintro ⟨m, hm, hp⟩
      obtain ⟨hin, hlow, hnone⟩ := (regionAreas_frames m hsorted hends).mp hp
      exact ⟨hlow, ⟨m, hm, (within_iff (hmemory.fits m hm)).mpr hin⟩, hnone⟩
    · rintro ⟨hlow, ⟨m, hm, hin⟩, hnone⟩
      exact ⟨m, hm, (regionAreas_frames m hsorted hends).mpr
        ⟨(within_iff (hmemory.fits m hm)).mp hin, hlow, hnone⟩⟩
  · rw [hframes, freeHighpages, memorySweep_eq]
    exact total_eq hareas htotal

/-- Memory of 256 MiB. -/
def someMemory : MemblockType := ⟨1, 128, fun _ => ⟨0x50000000, 0x10000000⟩, 129, none⟩

/-- Two reserved regions in one page of it. -/
def someReserved : MemblockType :=
  ⟨2, 128, fun i => if i = 0 then ⟨0x5F000010, 16⟩ else ⟨0x5F000100, 16⟩, 129, none⟩

/-- The frames around the page are released. -/
theorem freeHighpages_released_some :
    Released someMemory someReserved 0x5E000 0 (freeHighpages someMemory someReserved 0x5E000 0) :=
  freeHighpages_released someMemory someReserved 0x5E000 0
    ⟨by decide +kernel, by decide +kernel, by decide +kernel⟩
    ⟨by decide +kernel, by decide +kernel, by decide +kernel⟩ (by decide)

end BiscuitOS.HighmemSweep
