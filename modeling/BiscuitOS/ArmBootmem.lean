import BiscuitOS.BootArch
import BiscuitOS.BootmemBootmap
import BiscuitOS.BootmemHistory
import BiscuitOS.MemblockAllocation

/-!
# From the region tables to the boot allocator

`arm_bootmem_init` of `arch/arm/mm/init.c`: the bitmap is taken from the region
tables, memory regions are rounded inwards and freed, reserved regions are
rounded outwards and marked. Either loop is left at the first region that starts
behind its own end or behind the node, and a memory region without a page
boundary does that as well. A range behind the node ends in a `BUG` that only
prints.
-/

namespace BiscuitOS.ArmBootmem

open MachineWord WordBitmap BootArch BootmemModel BootmemBootmap BootmemReserve BootmemHistory
  MemblockModel MemblockTable MemblockUpdate MemblockSearch
open MemblockAllocation (WellFormed Request span Usable)

/-- `L1_CACHE_BYTES`. -/
def l1CacheBytes : ℕ := 2 ^ 5

/-- `__pfn_to_phys`. -/
def pfnToPhys (x : ℕ) : ℕ := wrap 64 (x * 4096)

/-- `memblock_region_memory_base_pfn`. -/
def memblockRegionMemoryBasePfn (reg : Region) : ℕ := pfnUp reg.base

/-- `memblock_region_memory_end_pfn`. -/
def memblockRegionMemoryEndPfn (reg : Region) : ℕ := pfnDown (wrap 64 (reg.base + reg.size))

/-- `memblock_region_reserved_base_pfn`. -/
def memblockRegionReservedBasePfn (reg : Region) : ℕ := pfnDown reg.base

/-- `memblock_region_reserved_end_pfn`. -/
def memblockRegionReservedEndPfn (reg : Region) : ℕ := pfnUp (wrap 64 (reg.base + reg.size))

/-- The loop of `arm_bootmem_init` over the memory regions from `i` on, with the regions left. -/
def freeRegions (t : MemblockType) (endPfn : ℕ) (nodes : List BootmemData) (i : ℕ) :
    ℕ → List BootmemData
  | 0 => nodes
  | left + 1 =>
    let start := memblockRegionMemoryBasePfn (t.regions i)
    let fin := memblockRegionMemoryEndPfn (t.regions i)
    let last := if fin > endPfn then endPfn else fin
    if start > last then nodes
    else
      freeRegions t endPfn
        (freeBootmem nodes (pfnToPhys start) (wrap 64 (wrapSub 64 last start * 4096))) (i + 1) left

/-- The loop of `arm_bootmem_init` over the reserved regions from `i` on, with the regions
left. -/
def reserveRegions (t : MemblockType) (endPfn : ℕ) (nodes : List BootmemData) (i : ℕ) :
    ℕ → List BootmemData
  | 0 => nodes
  | left + 1 =>
    let start := memblockRegionReservedBasePfn (t.regions i)
    let fin := memblockRegionReservedEndPfn (t.regions i)
    let last := if fin > endPfn then endPfn else fin
    if start > last then nodes
    else
      reserveRegions t endPfn
        (reserveBootmem nodes (pfnToPhys start) (wrap 64 (wrapSub 64 last start * 4096))
          bootmemDefault).2 (i + 1) left

/-- What `arm_bootmem_init` asks `memblock_alloc_base` for. -/
def bitmapRequest (startPfn endPfn : ℕ) : Request where
  size := wrap 32 (bootmemBootmapPages (wrapSub 32 endPfn startPfn) * 4096)
  align := l1CacheBytes
  max := wrap 32 (pfnToPhys endPfn)

/-- `init_bootmem_node` on the first node, before any other is linked: the bitmap starts at the
page of the block it was given. -/
def initBootmemNode (place : Placement) (bdata : BootmemData) (memory : Bitmap)
    (freePfn startPfn endPfn : ℕ) (hs : startPfn ≤ maxPfn) (hf : endPfn ≤ maxPfn) :
    BootmemData :=
  let map := (physToMem place (pfnPhys freePfn)).getD 0
  (initBootmemCore bdata memory map startPfn endPfn hs hf).2

/-- `arm_bootmem_init`: the address of the bitmap, the list of nodes and the tables; nothing
while the tables are still searched. `memory` is what the place of the bitmap held. -/
def armBootmemInit (place : Placement) (bdata : BootmemData) (memory : Bitmap) (depth : ℕ)
    (startPfn endPfn : ℕ) (hs : startPfn ≤ maxPfn) (hf : endPfn ≤ maxPfn) (m : Memblock) :
    Option (ℕ × List BootmemData × Memblock) :=
  let r := bitmapRequest startPfn endPfn
  (memblockAllocBase depth r.size r.align r.max m).map fun (bitmap, m') =>
    let node := initBootmemNode place bdata memory (pfnDown bitmap) startPfn endPfn hs hf
    let freed := freeRegions m'.memory endPfn (linkBootmem node []) 0 m'.memory.cnt
    (bitmap, reserveRegions m'.reserved endPfn freed 0 m'.reserved.cnt, m')

/-- The whole page lies in the region. -/
def WholeIn (reg : Region) (p : ℕ) : Prop :=
  reg.base ≤ p * 4096 ∧ p * 4096 + 4096 ≤ Region.last reg

/-- Some byte of the page lies in the region. -/
def Touches (reg : Region) (p : ℕ) : Prop :=
  reg.base / 4096 ≤ p ∧ p * 4096 < Region.last reg

/-- The region has a page boundary in it, at one of its ends at least. -/
def HasBoundary (reg : Region) : Prop := (reg.base + 4095) / 4096 ≤ Region.last reg / 4096

/-- The page lies in one of the regions from `i` on, and the loop reaches that region. -/
def FreedBy (t : MemblockType) (i left p : ℕ) : Prop :=
  ∃ k, i ≤ k ∧ k < i + left ∧ WholeIn (t.regions k) p ∧
    ∀ j, i ≤ j → j ≤ k → HasBoundary (t.regions j)

/-- One of the regions from `i` on touches the page. -/
def TouchedBy (t : MemblockType) (i left p : ℕ) : Prop :=
  ∃ k, i ≤ k ∧ k < i + left ∧ Touches (t.regions k) p

/-- The node is as it was up to the bits of its pages. -/
structure SameNode (a b : BootmemData) : Prop where
  /-- The first page. -/
  minPfn : b.nodeMinPfn = a.nodeMinPfn
  /-- The end. -/
  lowPfn : b.nodeLowPfn = a.nodeLowPfn
  /-- The place of the bitmap. -/
  mapAddr : b.mapAddr = a.mapAddr
  /-- The end of the last allocation. -/
  lastEndOff : b.lastEndOff = a.lastEndOff
  /-- The bits behind the last page. -/
  padding : ∀ i, a.nodeLowPfn ≤ a.nodeMinPfn + i →
    bit b.nodeBootmemMap i = bit a.nodeBootmemMap i

variable {a b c : BootmemData} {t : MemblockType} {m : Memblock} {v : Bool}
  {start fin i left p endPfn startPfn depth : ℕ}

/-- Nothing happened. -/
theorem SameNode.refl (b : BootmemData) : SameNode b b := ⟨rfl, rfl, rfl, rfl, fun _ _ => rfl⟩

/-- One change after another. -/
theorem SameNode.trans (h : SameNode a b) (h' : SameNode b c) : SameNode a c where
  minPfn := h'.minPfn.trans h.minPfn
  lowPfn := h'.lowPfn.trans h.lowPfn
  mapAddr := h'.mapAddr.trans h.mapAddr
  lastEndOff := h'.lastEndOff.trans h.lastEndOff
  padding i hi := by
    rw [h'.padding i (by rw [h.lowPfn, h.minPfn]; exact hi), h.padding i hi]

/-- Marking a range changes bits of pages only. -/
theorem sameNode_of_marked (h : Marked v start fin a b) : SameNode a b :=
  ⟨h.minPfn, h.lowPfn, h.mapAddr, h.lastEndOff, fun i hi => by
    rw [h.bits i, if_neg (by omega)]⟩

/-- The bit of a page after a range was marked. -/
theorem reservedPage_marked (h : Marked v start fin a b) (hp : Owns a p) :
    reservedPage b p = if start ≤ p ∧ p < fin then v else reservedPage a p := by
  have hmin := hp.1
  have hlow := hp.2
  have hplace : a.nodeMinPfn + (p - a.nodeMinPfn) = p := by omega
  rw [reservedPage, h.minPfn, h.bits, hplace, reservedPage]
  by_cases hin : start ≤ p ∧ p < fin
  · rw [if_pos hin, if_pos ⟨hin.1, hin.2, hlow⟩]
  · rw [if_neg hin, if_neg fun hall => hin ⟨hall.1, hall.2.1⟩]

/-- `mark_bootmem` for a range of a single node that is reserved without asking for more. -/
theorem reserve_shared (b : BootmemData) (hmin : b.nodeMinPfn ≤ start) (hle : start ≤ fin)
    (hlow : fin ≤ b.nodeLowPfn) :
    ∃ b', (markBootmem [b] start fin true bootmemDefault).2 = [b'] ∧
      Marked true start fin b b' := by
  rw [markBootmem, markLoop]
  by_cases hout : start < b.nodeMinPfn ∨ start ≥ b.nodeLowPfn
  · rw [if_pos hout, markLoop]
    exact ⟨b, rfl, Marked.refl fun p hp h => by omega⟩
  rw [if_neg hout]
  dsimp only
  have hend : min b.nodeLowPfn fin = fin := Nat.min_eq_right hlow
  have hflags : bootmemDefault &&& bootmemExclusive = 0 := by decide
  obtain ⟨hres, hmark⟩ := markBootmemNode_shared b hflags hmin hle hlow
  rw [hend, if_neg (by simp [hres]), if_pos rfl, List.nil_append]
  exact ⟨_, rfl, hmark⟩

/-- The addresses of a page range come back as the range. -/
theorem pfn_range (hle : start ≤ fin) (hfin : fin ≤ maxPfn) :
    pfnToPhys start = start * 4096 ∧
      wrap 64 (pfnToPhys start + wrap 64 (wrapSub 64 fin start * 4096)) = fin * 4096 := by
  have hmax : maxPfn = 1048576 := by decide
  have hdiff : wrapSub 64 fin start = fin - start := wrapSub_of_le (by omega) hle
  have hstart : pfnToPhys start = start * 4096 := wrap_of_lt (by omega)
  have hsum : start * 4096 + (fin - start) * 4096 = fin * 4096 := by omega
  refine ⟨hstart, ?_⟩
  rw [hstart, hdiff, wrap_of_lt (show (fin - start) * 4096 < 2 ^ 64 by omega), hsum,
    wrap_of_lt (by omega)]

/-- `free_bootmem` of a page range. -/
theorem freeBootmem_range (hmin : b.nodeMinPfn ≤ start) (hle : start ≤ fin)
    (hlow : fin ≤ b.nodeLowPfn) :
    ∃ b', freeBootmem [b] (pfnToPhys start) (wrap 64 (wrapSub 64 fin start * 4096)) = [b'] ∧
      Marked false start fin b b' := by
  have hmax : maxPfn = 1048576 := by decide
  have hnode := b.lowPfn_le
  obtain ⟨hfrom, hto⟩ := pfn_range hle (by omega)
  have hup : pfnUp (start * 4096) = start := by
    rw [pfnUp, wrap_of_lt (by omega)]
    omega
  have hdown : pfnDown (fin * 4096) = fin := Nat.mul_div_cancel _ (by decide)
  rw [freeBootmem, hto, hdown, hfrom, hup]
  exact free_single b hmin (hmin.trans hle) hlow

/-- `reserve_bootmem` of a page range. -/
theorem reserveBootmem_range (hmin : b.nodeMinPfn ≤ start) (hle : start ≤ fin)
    (hlow : fin ≤ b.nodeLowPfn) :
    ∃ b', (reserveBootmem [b] (pfnToPhys start) (wrap 64 (wrapSub 64 fin start * 4096))
        bootmemDefault).2 = [b'] ∧ Marked true start fin b b' := by
  have hmax : maxPfn = 1048576 := by decide
  have hnode := b.lowPfn_le
  obtain ⟨hfrom, hto⟩ := pfn_range hle (by omega)
  have hup : pfnUp (fin * 4096) = fin := by
    rw [pfnUp, wrap_of_lt (by omega)]
    omega
  have hdown : pfnDown (start * 4096) = start := Nat.mul_div_cancel _ (by decide)
  rw [reserveBootmem, hto, hup, hfrom, hdown]
  exact reserve_shared b hmin hle hlow

/-- The page frame numbers of a region that does not wrap. -/
theorem region_pfns {reg : Region} (hfit : Region.last reg < 2 ^ 32) :
    memblockRegionMemoryBasePfn reg = (reg.base + 4095) / 4096 ∧
      memblockRegionMemoryEndPfn reg = Region.last reg / 4096 ∧
      memblockRegionReservedBasePfn reg = reg.base / 4096 ∧
      memblockRegionReservedEndPfn reg = (Region.last reg + 4095) / 4096 := by
  have hlast : wrap 64 (reg.base + reg.size) = Region.last reg := by
    rw [Region.last] at hfit ⊢
    exact wrap_of_lt (by omega)
  have hbase : reg.base ≤ Region.last reg := Nat.le_add_right _ _
  refine ⟨?_, ?_, rfl, ?_⟩
  · rw [memblockRegionMemoryBasePfn, pfnUp, wrap_of_lt (by omega)]
  · rw [memblockRegionMemoryEndPfn, hlast, pfnDown]
  · rw [memblockRegionReservedEndPfn, hlast, pfnUp, wrap_of_lt (by omega)]

/-- The first region is freed, or one behind it. -/
theorem freedBy_succ : FreedBy t i (left + 1) p ↔
    HasBoundary (t.regions i) ∧ (WholeIn (t.regions i) p ∨ FreedBy t (i + 1) left p) := by
  constructor
  · rintro ⟨k, hi, hk, hin, hall⟩
    refine ⟨hall i le_rfl hi, ?_⟩
    rcases Nat.eq_or_lt_of_le hi with rfl | hlt
    · exact Or.inl hin
    · exact Or.inr ⟨k, hlt, by omega, hin, fun j hj hjk => hall j (by omega) hjk⟩
  · rintro ⟨hfirst, hin | ⟨k, hi, hk, hin, hall⟩⟩
    · refine ⟨i, le_rfl, by omega, hin, fun j hj hji => ?_⟩
      have hsame : j = i := by omega
      rwa [hsame]
    · refine ⟨k, by omega, by omega, hin, fun j hj hjk => ?_⟩
      rcases Nat.eq_or_lt_of_le hj with rfl | hlt
      · exact hfirst
      · exact hall j hlt hjk

/-- The first region touches the page, or one behind it. -/
theorem touchedBy_succ : TouchedBy t i (left + 1) p ↔
    Touches (t.regions i) p ∨ TouchedBy t (i + 1) left p := by
  constructor
  · rintro ⟨k, hi, hk, hin⟩
    rcases Nat.eq_or_lt_of_le hi with rfl | hlt
    · exact Or.inl hin
    · exact Or.inr ⟨k, hlt, by omega, hin⟩
  · rintro (hin | ⟨k, hi, hk, hin⟩)
    · exact ⟨i, le_rfl, by omega, hin⟩
    · exact ⟨k, by omega, by omega, hin⟩

/-- A region whose first page lies behind the node starts behind the node. -/
theorem base_of_pfn {n base : ℕ} (h : n < (base + 4095) / 4096) : n * 4096 ≤ base := by
  omega

/-- Regions behind one that starts behind the node start behind the node as well. -/
theorem starts_behind (n : ℕ) (hs : Spaced 0 t) {k : ℕ} (hik : i ≤ k) (hk : k < t.cnt)
    (hi : n * 4096 ≤ (t.regions i).base) : n * 4096 ≤ (t.regions k).base := by
  rcases Nat.eq_or_lt_of_le hik with rfl | hlt
  · exact hi
  · have hnext := hs.apart_lt hlt hk
    rw [Region.last] at hnext
    omega

/-- The loop over the memory regions clears the bits of the pages it reaches. -/
theorem freeRegions_spec (hs : Spaced 0 t) (hlow : b.nodeLowPfn = endPfn)
    (habove : ∀ k < t.cnt, b.nodeMinPfn * 4096 ≤ (t.regions k).base)
    (hcnt : i + left ≤ t.cnt) :
    ∃ b', freeRegions t endPfn [b] i left = [b'] ∧ SameNode b b' ∧
      ∀ p, Owns b p → (reservedPage b' p = false ↔
        FreedBy t i left p ∨ reservedPage b p = false) := by
  induction left generalizing b i with
  | zero =>
    refine ⟨b, rfl, SameNode.refl b, fun p _ => (or_iff_right ?_).symm⟩
    rintro ⟨k, hi, hk, -⟩
    omega
  | succ left ih =>
    have hi : i < t.cnt := by omega
    have hmin := habove i hi
    obtain ⟨hbase, hend, -, -⟩ := region_pfns (hs.fits i hi)
    rw [freeRegions, hbase, hend]
    have hclip : (if Region.last (t.regions i) / 4096 > endPfn then endPfn
        else Region.last (t.regions i) / 4096) = min (Region.last (t.regions i) / 4096) endPfn := by
      rw [Nat.min_def]
      split_ifs <;> omega
    rw [hclip]
    by_cases hstop : ((t.regions i).base + 4095) / 4096 >
        min (Region.last (t.regions i) / 4096) endPfn
    · rw [if_pos hstop]
      refine ⟨b, rfl, SameNode.refl b, fun p hp => (or_iff_right ?_).symm⟩
      rintro ⟨k, hik, hk, hin, hall⟩
      have hbound := hall i le_rfl hik
      have hpage := hin.1
      have hown := hp.2
      rw [HasBoundary] at hbound
      have hfirst : endPfn < ((t.regions i).base + 4095) / 4096 := by
        rcases min_lt_iff.mp hstop with hend | hnode
        · omega
        · exact hnode
      have hfrom := starts_behind endPfn hs hik (by omega) (base_of_pfn hfirst)
      omega
    · rw [if_neg hstop]
      obtain ⟨b₁, hfree, hmark⟩ := @freeBootmem_range b
        (((t.regions i).base + 4095) / 4096) (min (Region.last (t.regions i) / 4096) endPfn)
        (by omega) (by omega) (by omega)
      have hsame := sameNode_of_marked hmark
      obtain ⟨b', hrest, hnode, hbits⟩ := @ih b₁ (i + 1) (hsame.lowPfn.trans hlow)
        (fun k hk => by rw [hsame.minPfn]; exact habove k hk) (by omega)
      rw [hfree, hrest]
      refine ⟨b', rfl, hsame.trans hnode, fun p hp => ?_⟩
      have hbound : HasBoundary (t.regions i) := by
        rw [HasBoundary]
        omega
      have hown := hp.2
      rw [hbits p ((hmark.owns p).mpr hp), reservedPage_marked hmark hp, freedBy_succ]
      by_cases hin : WholeIn (t.regions i) p
      · have hrange := hin
        rw [WholeIn] at hrange
        rw [if_pos ⟨by omega, by omega⟩]
        exact ⟨fun _ => Or.inl ⟨hbound, Or.inl hin⟩, fun _ => Or.inr rfl⟩
      · have hrange := hin
        rw [WholeIn] at hrange
        rw [if_neg (by omega)]
        simp only [hbound, hin, true_and, false_or]

/-- The loop over the reserved regions sets the bits of the pages they touch. -/
theorem reserveRegions_spec (hs : Spaced 0 t) (hfull : ∀ k < t.cnt, 0 < (t.regions k).size)
    (hlow : b.nodeLowPfn = endPfn)
    (habove : ∀ k < t.cnt, b.nodeMinPfn * 4096 ≤ (t.regions k).base)
    (hcnt : i + left ≤ t.cnt) :
    ∃ b', reserveRegions t endPfn [b] i left = [b'] ∧ SameNode b b' ∧
      ∀ p, Owns b p → (reservedPage b' p = false ↔
        ¬TouchedBy t i left p ∧ reservedPage b p = false) := by
  induction left generalizing b i with
  | zero =>
    refine ⟨b, rfl, SameNode.refl b, fun p _ => (and_iff_right ?_).symm⟩
    rintro ⟨k, hi, hk, -⟩
    omega
  | succ left ih =>
    have hi : i < t.cnt := by omega
    have hmin := habove i hi
    have hsize := hfull i hi
    obtain ⟨-, -, hbase, hend⟩ := region_pfns (hs.fits i hi)
    have hlast : Region.last (t.regions i) = (t.regions i).base + (t.regions i).size := rfl
    rw [reserveRegions, hbase, hend]
    have hclip : (if (Region.last (t.regions i) + 4095) / 4096 > endPfn then endPfn
        else (Region.last (t.regions i) + 4095) / 4096) =
        min ((Region.last (t.regions i) + 4095) / 4096) endPfn := by
      rw [Nat.min_def]
      split_ifs <;> omega
    rw [hclip]
    by_cases hstop : (t.regions i).base / 4096 >
        min ((Region.last (t.regions i) + 4095) / 4096) endPfn
    · rw [if_pos hstop]
      refine ⟨b, rfl, SameNode.refl b, fun p hp => (and_iff_right ?_).symm⟩
      rintro ⟨k, hik, hk, hin⟩
      have hown := hp.2
      have hpage := hin.1
      have hfirst : endPfn < (t.regions i).base / 4096 := by
        rcases min_lt_iff.mp hstop with hend | hnode
        · omega
        · exact hnode
      have hfrom := starts_behind endPfn hs hik (by omega) (base_of_pfn (by omega))
      omega
    · rw [if_neg hstop]
      obtain ⟨b₁, hres, hmark⟩ := @reserveBootmem_range b
        ((t.regions i).base / 4096) (min ((Region.last (t.regions i) + 4095) / 4096) endPfn)
        (by omega) (by omega) (by omega)
      have hsame := sameNode_of_marked hmark
      obtain ⟨b', hrest, hnode, hbits⟩ := @ih b₁ (i + 1) (hsame.lowPfn.trans hlow)
        (fun k hk => by rw [hsame.minPfn]; exact habove k hk) (by omega)
      rw [hres, hrest]
      refine ⟨b', rfl, hsame.trans hnode, fun p hp => ?_⟩
      have hown := hp.2
      rw [hbits p ((hmark.owns p).mpr hp), reservedPage_marked hmark hp, touchedBy_succ]
      by_cases hin : Touches (t.regions i) p
      · have hrange := hin
        rw [Touches] at hrange
        rw [if_pos ⟨by omega, by omega⟩]
        simp only [hin, true_or, not_true_eq_false, false_and, Bool.true_eq_false, and_false]
      · have hrange := hin
        rw [Touches] at hrange
        rw [if_neg (by omega)]
        simp only [hin, false_or]

/-- The request for the bitmap of a node with a page of bits at least. -/
theorem bitmapRequest_legal (hle : startPfn + 32768 ≤ endPfn) (hmax : endPfn ≤ maxPfn) :
    (bitmapRequest startPfn endPfn).Legal := by
  have hpages : maxPfn = 1048576 := by decide
  have hdiff : wrapSub 32 endPfn startPfn = endPfn - startPfn := wrapSub_of_le (by omega) (by omega)
  have hsize : (bitmapRequest startPfn endPfn).size =
      (((endPfn - startPfn + 7) / 8 + 7) / 8 * 8) / 4096 * 4096 := by
    rw [bitmapRequest, hdiff, bootmemBootmapPages_eq, bootmapBytes_eq,
      wrap_of_lt (show endPfn - startPfn + 7 < 2 ^ 64 by omega),
      Nat.mod_eq_of_lt (by omega), wrap_of_lt (by omega)]
  have halign : (bitmapRequest startPfn endPfn).align = 32 := rfl
  refine ⟨by omega, ⟨5, by decide, rfl⟩, by omega⟩

/-- A block is taken when some place fits, without the table being doubled. -/
theorem allocBase_granted {r : Request} (hmem : Spaced 0 m.memory) (hres : Spaced 0 m.reserved)
    (hcnt : m.reserved.cnt ≠ 0) (hroom : m.reserved.cnt + 1 < m.reserved.max) (hlegal : r.Legal)
    (hfit : ∃ q, Fits m r.rounded r.align r.max q) :
    ∃ q t', memblockAllocBase depth r.size r.align r.max m = some (q, m.setTable .reserved t') ∧
      MemblockAllocation.Granted m (m.setTable .reserved t') r q ∧ Spaced 0 t' ∧
      bytes t' = bytes m.reserved ∪ span (q, r.rounded) := by
  obtain ⟨hsize, -⟩ := MemblockAllocation.rounded_spec hlegal
  obtain ⟨hpos, ⟨k, hk, hal⟩, -⟩ := hlegal
  obtain ⟨found, hfound, hcases⟩ := findBase_isGreatest hmem hres
    (show 0 < r.rounded by omega) hk r.max
  rw [← hal] at hfound hcases
  obtain ⟨hnz, hgreat⟩ :
      found ≠ 0 ∧ IsGreatest {q | Fits m r.rounded r.align r.max q} found := by
    rcases hcases with ⟨-, hnone⟩ | hgreat
    · obtain ⟨q, hq⟩ := hfit
      exact absurd hq (hnone q)
    · exact hgreat
  have hfits := hgreat.1
  obtain ⟨i, hi, -, hhi, -, hclear⟩ := hgreat.1
  have hlast : found + r.rounded < 2 ^ 32 := by
    have hregion := hmem.fits i hi
    omega
  have hadd : ∃ ret t', 0 ≤ ret ∧
      memblockAddRegion depth .reserved found r.rounded m = some (ret, m.setTable .reserved t') ∧
      Becomes 0 m.reserved t' (bytes m.reserved ∪ Set.Ico found (found + r.rounded)) := by
    by_cases hd : IsDummy m.reserved
    · have hb := setRegion_dummy hres hd found r.rounded 0 hlast
      rw [← Set.empty_union (Set.Ico found (found + r.rounded)), ← bytes_dummy hd] at hb
      exact ⟨0, _, le_rfl, addRegion_dummy hd, hb⟩
    · exact addRegion_clear rfl hres (Nat.zero_le 1) (by omega) hd (by omega) hlast hclear
        fun _ => hroom
  obtain ⟨ret, t', hret, he, hb⟩ := hadd
  refine ⟨found, t', ?_, MemblockAllocation.Fits.granted hfits ?_, hb.spaced, hb.bytes_eq⟩
  · rw [memblockAllocBase]
    change (memblockFindBase m r.rounded r.align 0 r.max).bind _ = _
    rw [hfound, Option.bind_some, if_pos (show found ≠ memblockError from hnz)]
    change (memblockAddRegion depth .reserved found r.rounded m).map _ = _
    rw [he, Option.map_some]
    dsimp only
    rw [if_pos hret]
  · rw [show (m.setTable .reserved t').reserved = t' from rfl, hb.bytes_eq]
    exact Set.subset_union_right

/-- All pages of a fresh node are reserved, and so is the rest of its last word. -/
theorem initBootmemNode_bits (place : Placement) (bdata : BootmemData) (memory : Bitmap) (q : ℕ)
    (hs : startPfn ≤ maxPfn) (hf : endPfn ≤ maxPfn) (hle : startPfn ≤ endPfn)
    (hi : i / 32 * 32 < endPfn - startPfn) :
    bit (initBootmemNode place bdata memory q startPfn endPfn hs hf).nodeBootmemMap i = true := by
  have hpages : maxPfn = 1048576 := by decide
  have hdiff : wrapSub 64 endPfn startPfn = endPfn - startPfn := wrapSub_of_le (by omega) hle
  have hsize : bootmapBytes (endPfn - startPfn) = ((endPfn - startPfn + 7) / 8 + 7) / 8 * 8 := by
    rw [bootmapBytes_eq, wrap_of_lt (show endPfn - startPfn + 7 < 2 ^ 64 by omega)]
  have hword : i / 32 < bootmapBytes (wrapSub 64 endPfn startPfn) / 4 := by
    rw [hdiff, hsize]
    omega
  simp only [initBootmemNode, initBootmemCore, bit, if_pos hword, BitVec.getLsbD_allOnes,
    decide_eq_true (Nat.mod_lt i word_pos)]

/-- A page is touched exactly when one of its bytes belongs to the table. -/
theorem touchedBy_iff (hfull : ∀ k < t.cnt, 0 < (t.regions k).size) :
    TouchedBy t 0 t.cnt p ↔ ∃ x ∈ bytes t, x / 4096 = p := by
  constructor
  · rintro ⟨k, -, hk, hfrom, hto⟩
    have hsize := hfull k (by omega)
    have hlast : Region.last (t.regions k) = (t.regions k).base + (t.regions k).size := rfl
    by_cases hlow : (t.regions k).base ≤ p * 4096
    · exact ⟨p * 4096, ⟨k, by omega, hlow, hto⟩, Nat.mul_div_cancel _ (by decide)⟩
    · exact ⟨(t.regions k).base, ⟨k, by omega, le_rfl, by omega⟩, by omega⟩
  · rintro ⟨x, ⟨k, hk, hfrom, hto⟩, rfl⟩
    exact ⟨k, Nat.zero_le k, by omega, by omega, by omega⟩

/-- What `arm_bootmem_init` leaves: the tables `m'` reserve the bitmap on top of `m`, and a page of
the node is clear exactly when it lies in a memory region that the loop reaches and no byte of it
is reserved. -/
structure TakenOver (place : Placement) (bdata : BootmemData) (m m' : Memblock)
    (startPfn endPfn bitmap : ℕ) (b : BootmemData) : Prop where
  /-- The first page. -/
  minPfn : b.nodeMinPfn = startPfn
  /-- The end. -/
  lowPfn : b.nodeLowPfn = endPfn
  /-- The bitmap starts with the page of its block. -/
  mapAddr : b.mapAddr = (physToMem place (pfnPhys (bitmap / 4096))).getD 0
  /-- No allocation yet. -/
  lastEndOff : b.lastEndOff = bdata.lastEndOff
  /-- The memory regions are as they were. -/
  memory : m'.memory = m.memory
  /-- The block of the bitmap was free memory. -/
  granted : MemblockAllocation.Granted m m' (bitmapRequest startPfn endPfn) bitmap
  /-- It is all that was reserved. -/
  reserved : bytes m'.reserved =
    bytes m.reserved ∪ span (bitmap, (bitmapRequest startPfn endPfn).rounded)
  /-- The bits of the pages. -/
  clear : ∀ p, Owns b p → (reservedPage b p = false ↔
    FreedBy m.memory 0 m.memory.cnt p ∧ ∀ x ∈ bytes m'.reserved, x / 4096 ≠ p)
  /-- The rest of the last word. -/
  padding : ∀ i, endPfn ≤ startPfn + i → i / 32 * 32 < endPfn - startPfn →
    bit b.nodeBootmemMap i = true

/-- For every pair of sorted, disjoint tables with no byte below the node and a place for the
bitmap, the boot allocator starts with exactly the whole pages of memory of which no byte is
reserved, up to the first memory region without a page boundary. -/
theorem armBootmemInit_takenOver (place : Placement) (bdata : BootmemData) (memory : Bitmap)
    (depth : ℕ) (hs : startPfn ≤ maxPfn) (hf : endPfn ≤ maxPfn) (hle : startPfn + 32768 ≤ endPfn)
    (hmem : Spaced 0 m.memory) (hres : Spaced 0 m.reserved) (hcnt : m.reserved.cnt ≠ 0)
    (hroom : m.reserved.cnt + 1 < m.reserved.max)
    (habove : ∀ x ∈ bytes m.memory ∪ bytes m.reserved, startPfn * 4096 ≤ x)
    (hfit : ∃ q, Fits m (bitmapRequest startPfn endPfn).rounded l1CacheBytes
      (bitmapRequest startPfn endPfn).max q) :
    ∃ bitmap b m', armBootmemInit place bdata memory depth startPfn endPfn hs hf m =
        some (bitmap, [b], m') ∧ TakenOver place bdata m m' startPfn endPfn bitmap b := by
  have hlegal := bitmapRequest_legal hle hf
  obtain ⟨bitmap, t', halloc, hgranted, hspaced, hbytes⟩ :=
    @allocBase_granted m depth _ hmem hres hcnt hroom hlegal hfit
  have hpos : 0 < (bitmapRequest startPfn endPfn).rounded :=
    lt_of_lt_of_le hlegal.1 (MemblockAllocation.rounded_spec hlegal).1
  have hblock : span (bitmap, (bitmapRequest startPfn endPfn).rounded) ⊆ bytes t' := by
    rw [hbytes]
    exact Set.subset_union_right
  have hfull : ∀ k < t'.cnt, 0 < (t'.regions k).size := fun k hk => by
    by_cases hone : t'.cnt = 1
    · obtain ⟨j, hj, hfrom, hto⟩ := hblock (show bitmap ∈ span _ from
        Set.mem_Ico.mpr ⟨le_rfl, Nat.lt_add_of_pos_right hpos⟩)
      have hsame : j = k := by omega
      rw [hsame, Region.last] at hto
      rw [hsame] at hfrom
      omega
    · exact hspaced.filled k hk hone
  obtain ⟨i, hi, hlow, hhigh⟩ := hgranted.inMemory
  have hmemFull : ∀ k < m.memory.cnt, 0 < (m.memory.regions k).size := fun k hk => by
    by_cases hone : m.memory.cnt = 1
    · have hsame : i = k := by omega
      rw [hsame, Region.last] at hhigh
      rw [hsame] at hlow
      omega
    · exact hmem.filled k hk hone
  have hmemAbove : ∀ k < m.memory.cnt, startPfn * 4096 ≤ (m.memory.regions k).base :=
    fun k hk => habove _ (Or.inl ⟨k, hk, le_rfl, Nat.lt_add_of_pos_right (hmemFull k hk)⟩)
  have hbitmap : startPfn * 4096 ≤ bitmap := (hmemAbove i hi).trans hlow
  have hresAbove : ∀ k < t'.cnt, startPfn * 4096 ≤ (t'.regions k).base := fun k hk => by
    have hbase : (t'.regions k).base ∈ bytes t' :=
      ⟨k, hk, le_rfl, Nat.lt_add_of_pos_right (hfull k hk)⟩
    rw [hbytes] at hbase
    rcases hbase with hold | hnew
    · exact habove _ (Or.inr hold)
    · exact hbitmap.trans hnew.1
  obtain ⟨b₁, hfreed, hsame₁, hbits₁⟩ := @freeRegions_spec
    (initBootmemNode place bdata memory (pfnDown bitmap) startPfn endPfn hs hf) m.memory 0
    m.memory.cnt endPfn hmem rfl hmemAbove (Nat.zero_add _).le
  obtain ⟨b₂, hreserved, hsame₂, hbits₂⟩ := @reserveRegions_spec b₁ t' 0 t'.cnt endPfn hspaced
    hfull hsame₁.lowPfn (by rw [hsame₁.minPfn]; exact hresAbove) (Nat.zero_add _).le
  have hsame := hsame₁.trans hsame₂
  refine ⟨bitmap, b₂, m.setTable .reserved t', ?_, hsame.minPfn, hsame.lowPfn, hsame.mapAddr,
    hsame.lastEndOff, rfl, hgranted, hbytes, fun p hp => ?_, fun i hout hin => ?_⟩
  · rw [armBootmemInit, halloc, Option.map_some, ← hreserved, ← hfreed]
    rfl
  · have hown : Owns (initBootmemNode place bdata memory (pfnDown bitmap) startPfn endPfn hs hf) p :=
      ⟨by rw [← hsame.minPfn]; exact hp.1, by rw [← hsame.lowPfn]; exact hp.2⟩
    have hfirst : reservedPage (initBootmemNode place bdata memory (pfnDown bitmap) startPfn endPfn
        hs hf) p ≠ false := by
      have hbound : p < endPfn := hown.2
      have hfrom : startPfn ≤ p := hown.1
      have hbit := @initBootmemNode_bits (p - startPfn) endPfn startPfn place bdata memory
        (pfnDown bitmap) hs hf (by omega) (by omega)
      exact ne_of_eq_of_ne hbit Bool.noConfusion
    rw [hbits₂ p ⟨by rw [hsame₁.minPfn]; exact hown.1, by rw [hsame₁.lowPfn]; exact hown.2⟩,
      hbits₁ p hown, touchedBy_iff hfull, or_iff_left hfirst, and_comm]
    simp only [not_exists, not_and, ne_eq]
    rfl
  · rw [hsame.padding i hout]
    exact initBootmemNode_bits place bdata memory _ hs hf (by omega) hin

/-- `bootmem_node_data`, zeroed. -/
def bootmemNodeData : BootmemData where
  nodeMinPfn := 0
  nodeLowPfn := 0
  mapAddr := 0
  nodeBootmemMap := fun _ => 0#32
  lastEndOff := 0
  hintIdx := 0
  lowPfn_le := by decide
  minPfn_le := by decide

/-- The first bank, with the page tables reserved. -/
def bank0Tables : Memblock :=
  { memblockInit with
    memory := staticTable.setRegion 0 ⟨bank0Start, bank0Size⟩
    reserved := staticTable.setRegion 0 ⟨0x50004000, 0x4000⟩ }

/-- Both tables have one region. -/
theorem bank0Tables_spaced : Spaced 0 bank0Tables.memory ∧ Spaced 0 bank0Tables.reserved := by
  obtain ⟨hs, -⟩ := memblockInit_table .memory
  have hd : IsDummy staticTable := ⟨rfl, by decide⟩
  exact ⟨(setRegion_dummy hs hd bank0Start bank0Size 0 (by decide)).spaced,
    (setRegion_dummy hs hd 0x50004000 0x4000 0 (by decide)).spaced⟩

/-- No byte lies below the first bank. -/
theorem bank0Tables_above : ∀ x ∈ bytes bank0Tables.memory ∪ bytes bank0Tables.reserved,
    0x50000 * 4096 ≤ x := by
  have hone : ∀ {t : MemblockType} {r : Region} {x : ℕ}, t.cnt = 1 → t.regions 0 = r →
      x ∈ bytes t → r.base ≤ x := by
    rintro t r x hc rfl ⟨i, hi, hx, -⟩
    have hz : i = 0 := by omega
    rwa [hz] at hx
  rintro x (hx | hx)
  · exact hone rfl (MemblockType.setRegion_self _ _ _) hx
  · exact (by decide : 0x50000 * 4096 ≤ 0x50004000).trans
      (hone rfl (MemblockType.setRegion_self _ _ _) hx)

/-- The bitmap of the first bank fits at the end of the bank. -/
theorem bank0Tables_fit : Fits bank0Tables (bitmapRequest 0x50000 0x60000).rounded l1CacheBytes
    (bitmapRequest 0x50000 0x60000).max (0x60000000 - 8192) := by
  refine ⟨0, by decide, by decide, by decide, by decide, fun i hi => ?_⟩
  have hz : i = 0 := Nat.lt_one_iff.mp hi
  rw [hz]
  exact Or.inl (by decide)

/-- The node of the first bank. -/
theorem armBootmemInit_takenOver_bank0 :
    ∃ bitmap b m', armBootmemInit backToBack bootmemNodeData (fun _ => 0#32) 0 0x50000 0x60000
        (by decide) (by decide) bank0Tables = some (bitmap, [b], m') ∧
      TakenOver backToBack bootmemNodeData bank0Tables m' 0x50000 0x60000 bitmap b :=
  armBootmemInit_takenOver backToBack bootmemNodeData _ 0 _ _ (by decide) bank0Tables_spaced.1
    bank0Tables_spaced.2 (by decide) (by decide) bank0Tables_above ⟨_, bank0Tables_fit⟩

end BiscuitOS.ArmBootmem
