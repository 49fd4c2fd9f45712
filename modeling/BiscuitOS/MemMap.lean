import BiscuitOS.MachineWord
import BiscuitOS.BuddyModel

/-!
# The memory map

`pfn_to_page` and `page_to_pfn` of `include/linux/page.h` and
`alloc_node_mem_map` of `mm/page_alloc.c`. The descriptors lie in one bank of
the simulated memory, where `phys_to_mem` and `mem_to_phys` subtract and add
one offset. `mm/page_alloc.c` has no prototype of `mem_to_phys`, so its result
is an `int` there. `alloc_remap` always returns `NULL`, and the allocation
from bootmem is an argument.
-/

namespace BiscuitOS.MemMap

open MachineWord BuddyModel

/-- `PHYS_PFN_OFFSET`. -/
def physPfnOffset : ℕ := 0x50000

/-- `MAX_ORDER_NR_PAGES`. -/
def maxOrderNrPages : ℕ := 2 ^ (maxOrder - 1)

/-- The bank that holds the memory map, and the size of its entries. -/
structure MapBank where
  /-- The offset of the bank, `MEM0_OFFSET` or `MEM1_OFFSET`. -/
  offset : ℕ
  /-- `sizeof(struct page)`. -/
  sizeofPage : ℕ
  /-- A descriptor has bytes. -/
  positive : 0 < sizeofPage

variable (v : MapBank)

/-- `phys_to_mem` in the bank. -/
def physToMem (addr : ℕ) : ℕ := wrapSub 64 (wrap 32 addr) v.offset

/-- `mem_to_phys` in the bank. -/
def memToPhys (ad : ℕ) : ℕ := wrap 32 (ad + v.offset)

/-- `pfn_to_page`. -/
def pfnToPage (memMap pfn : ℕ) : ℕ :=
  physToMem v (wrap 64 (memMap + wrapSub 64 pfn physPfnOffset * v.sizeofPage))

/-- `page_to_pfn`. -/
def pageToPfn (memMap x : ℕ) : ℕ :=
  toUnsigned 64 ((toSigned 64 ((memToPhys v x : ℤ) - memMap)).tdiv v.sizeofPage + physPfnOffset)

/-- The frames of a node. Physical addresses have 32 bits. -/
structure Node where
  /-- `node_start_pfn`. -/
  nodeStartPfn : ℕ
  /-- `node_spanned_pages`. -/
  nodeSpannedPages : ℕ
  /-- The node does not start below the physical memory. -/
  low : physPfnOffset ≤ nodeStartPfn
  /-- The node is not empty. -/
  nonempty : 0 < nodeSpannedPages
  /-- Its frames have physical addresses. -/
  high : nodeStartPfn + nodeSpannedPages ≤ 2 ^ 20

/-- `start` in `alloc_node_mem_map`. -/
def mapStart (n : Node) : ℕ := alignDown 64 n.nodeStartPfn maxOrderNrPages

/-- `end` in `alloc_node_mem_map`. -/
def mapEnd (n : Node) : ℕ := alignUp 64 (n.nodeStartPfn + n.nodeSpannedPages) maxOrderNrPages

/-- `alloc_node_mem_map` with the physical address `map` of its allocation: `node_mem_map` and
`mem_map`. -/
def allocNodeMemMap (n : Node) (map : ℕ) : ℕ × ℕ :=
  let nodeMemMap := wrap 64 (physToMem v map + (n.nodeStartPfn - mapStart n) * v.sizeofPage)
  (nodeMemMap, toUnsigned 64 (toSigned 32 (memToPhys v nodeMemMap)))

/-- The address of a descriptor of the allocation. -/
def descriptor (map i : ℕ) : ℕ := wrap 64 (physToMem v map + i * v.sizeofPage)

/-- Where an allocation lies. -/
structure MapFits (n : Node) (map : ℕ) : Prop where
  /-- It lies in the physical memory. -/
  inside : map + (mapEnd n - mapStart n) * v.sizeofPage ≤ 2 ^ 32
  /-- A descriptor fits a page. -/
  small : v.sizeofPage ≤ 4096

/-- A frame of the map has one of the allocated descriptors. -/
def HasDescriptor (n : Node) (map pfn : ℕ) : Prop :=
  ∃ i < mapEnd n - mapStart n, pfnToPage v (allocNodeMemMap v n map).2 pfn = descriptor v map i

/-- The frames of the map have allocated descriptors, each its own that leads back to it, and so do
their buddies. -/
structure Indexed (n : Node) (map : ℕ) : Prop where
  /-- Each frame has an allocated descriptor. -/
  inside : ∀ pfn, mapStart n ≤ pfn → pfn < mapEnd n → HasDescriptor v n map pfn
  /-- Different frames have different ones. -/
  distinct : ∀ p q, mapStart n ≤ p → p < mapEnd n → mapStart n ≤ q → q < mapEnd n →
    pfnToPage v (allocNodeMemMap v n map).2 p = pfnToPage v (allocNodeMemMap v n map).2 q → p = q
  /-- A descriptor leads back to its frame. -/
  back : ∀ pfn, mapStart n ≤ pfn → pfn < mapEnd n →
    pageToPfn v (allocNodeMemMap v n map).2 (pfnToPage v (allocNodeMemMap v n map).2 pfn) = pfn
  /-- The buddies below the largest order have allocated descriptors. -/
  buddies : ∀ pfn order, mapStart n ≤ pfn → pfn < mapEnd n → order < maxOrder - 1 →
    HasDescriptor v n map (findBuddyIndex pfn order)

variable {v} {n : Node} {map memMap p q i j : ℕ}

/-- The translation there and back cuts an address to 32 bits. -/
theorem memToPhys_physToMem_wrap : memToPhys v (physToMem v p) = wrap 32 p := by
  rw [memToPhys, physToMem, wrapSub, wrap, wrap]
  omega

/-- The translation loses no physical address. -/
theorem memToPhys_physToMem (hp : p < 2 ^ 32) : memToPhys v (physToMem v p) = p := by
  rw [memToPhys_physToMem_wrap, wrap_of_lt hp]

/-- Different physical addresses are translated to different ones. -/
theorem physToMem_inj (hp : p < 2 ^ 32) (hq : q < 2 ^ 32) (h : physToMem v p = physToMem v q) :
    p = q := by
  rw [← memToPhys_physToMem hp, h, memToPhys_physToMem hq]

/-- A place behind a translated address. -/
theorem physToMem_add (h : p + q < 2 ^ 32) : wrap 64 (physToMem v p + q) = physToMem v (p + q) := by
  have hp : wrap 32 p = p := wrap_of_lt (by omega)
  rw [physToMem, physToMem, hp, wrap_of_lt h, wrapSub, wrapSub, wrap]
  omega

/-- The bounds of the map. -/
theorem mapBounds (n : Node) :
    mapStart n ≤ n.nodeStartPfn ∧ n.nodeStartPfn < mapStart n + maxOrderNrPages ∧
      maxOrderNrPages ∣ mapStart n ∧ n.nodeStartPfn < mapEnd n ∧ mapEnd n ≤ 2 ^ 20 ∧
      maxOrderNrPages ∣ mapEnd n ∧ physPfnOffset ≤ mapStart n := by
  have hlow := n.low
  have hnonempty := n.nonempty
  have hhigh := n.high
  have hsize : maxOrderNrPages = 2 ^ 10 := rfl
  have hoffset : physPfnOffset = 320 * 1024 := rfl
  obtain ⟨h1, h2, h3⟩ := alignDown_spec (w := 64) (x := n.nodeStartPfn) (k := 10) (by omega)
    (by decide)
  obtain ⟨h4, h5, h6⟩ := alignUp_spec (w := 64) (x := n.nodeStartPfn + n.nodeSpannedPages) (k := 10)
    (by decide) (by omega)
  rw [mapStart, mapEnd, hsize]
  refine ⟨h1, h2, h3, by omega, ?_, h6, ?_⟩
  · obtain ⟨c, hc⟩ := h6
    omega
  · obtain ⟨c, hc⟩ := h3
    omega

/-- A frame of the map in the block of size `MAX_ORDER_NR_PAGES` has its buddies there. -/
theorem buddy_inside (n : Node) {order : ℕ} (hlow : mapStart n ≤ p) (hhigh : p < mapEnd n)
    (horder : order < maxOrder - 1) :
    mapStart n ≤ findBuddyIndex p order ∧ findBuddyIndex p order < mapEnd n := by
  obtain ⟨-, -, hstart, -, -, hend, -⟩ := mapBounds n
  have hsame : findBuddyIndex p order / maxOrderNrPages = p / maxOrderNrPages := by
    have hzero : 2 ^ order / 2 ^ (maxOrder - 1) = 0 :=
      Nat.div_eq_of_lt (Nat.pow_lt_pow_right (by decide) horder)
    rw [findBuddyIndex, maxOrderNrPages, Nat.xor_div_two_pow, hzero, Nat.xor_zero]
  have hsize : maxOrderNrPages = 1024 := rfl
  rw [hsize] at hstart hend hsame
  generalize findBuddyIndex p order = b at hsame
  omega

/-- The descriptors allocated lie in the physical memory. -/
theorem MapFits.below (h : MapFits v n map) (hi : i < mapEnd n - mapStart n) :
    map + i * v.sizeofPage < 2 ^ 32 := by
  have hpos := v.positive
  have hle := Nat.mul_le_mul_right v.sizeofPage (Nat.succ_le_of_lt hi)
  rw [Nat.succ_mul] at hle
  have hinside := h.inside
  omega

/-- An allocated descriptor by its physical address. -/
theorem descriptor_eq (h : MapFits v n map) (hi : i < mapEnd n - mapStart n) :
    descriptor v map i = physToMem v (map + i * v.sizeofPage) :=
  physToMem_add (h.below hi)

/-- The base that the macros use is that of the descriptor of the node's first frame, with its
highest bit extended. -/
theorem memMap_eq (h : MapFits v n map) :
    (allocNodeMemMap v n map).2 =
      if map + (n.nodeStartPfn - mapStart n) * v.sizeofPage < 2 ^ 31 then
        map + (n.nodeStartPfn - mapStart n) * v.sizeofPage
      else map + (n.nodeStartPfn - mapStart n) * v.sizeofPage + (2 ^ 64 - 2 ^ 32) := by
  obtain ⟨h1, -, -, h4, -⟩ := mapBounds n
  have hfirst := h.below (i := n.nodeStartPfn - mapStart n) (by omega)
  rw [allocNodeMemMap]
  dsimp only
  rw [physToMem_add hfirst, memToPhys_physToMem hfirst, toUnsigned_toSigned,
    Nat.mod_eq_of_lt hfirst]

/-- A frame is found at the descriptor with its distance from `PHYS_PFN_OFFSET`, counted from that of
the node's first frame. -/
theorem pfnToPage_memMap (h : MapFits v n map) (hlow : mapStart n ≤ p) (hhigh : p < mapEnd n) :
    pfnToPage v (allocNodeMemMap v n map).2 p =
      physToMem v (map + (n.nodeStartPfn - mapStart n + (p - physPfnOffset)) * v.sizeofPage) := by
  obtain ⟨h1, h2, -, h4, h5, -, h7⟩ := mapBounds n
  have hcut : ∀ memMap k : ℕ, k < 2 ^ 33 →
      (memMap < 2 ^ 32 ∨ ∃ x < 2 ^ 32, memMap = x + (2 ^ 64 - 2 ^ 32)) →
      physToMem v (wrap 64 (memMap + k)) = physToMem v (wrap 32 memMap + k) := by
    intro memMap k hk hbase
    have hsame : wrap 32 (wrap 64 (memMap + k)) = wrap 32 (wrap 32 memMap + k) := by
      simp only [wrap]
      omega
    rw [physToMem, physToMem, hsame]
  have hfirst := h.below (i := n.nodeStartPfn - mapStart n) (by omega)
  have hbytes : (p - physPfnOffset) * v.sizeofPage ≤ 2 ^ 20 * 4096 :=
    Nat.mul_le_mul (by omega) h.small
  rw [pfnToPage, wrapSub_of_le (by omega) (by omega), memMap_eq h, Nat.add_mul, ← Nat.add_assoc]
  generalize map + (n.nodeStartPfn - mapStart n) * v.sizeofPage = first at hfirst
  have hlow32 : ∀ x < 2 ^ 32, wrap 32 x = x ∧ wrap 32 (x + (2 ^ 64 - 2 ^ 32)) = x := by
    intro x hx
    simp only [wrap]
    omega
  split
  · rw [hcut _ _ (by omega) (.inl hfirst), (hlow32 first hfirst).1]
  · rw [hcut _ _ (by omega) (.inr ⟨first, hfirst, rfl⟩), (hlow32 first hfirst).2]

/-- A map whose frames have allocated descriptors is one of a node that starts at
`PHYS_PFN_OFFSET`. -/
theorem Indexed.starts (hindexed : Indexed v n map) (h : MapFits v n map) :
    n.nodeStartPfn = physPfnOffset := by
  obtain ⟨h1, h2, h3, h4, h5, h6, h7⟩ := mapBounds n
  have hpos := v.positive
  have hsmall := h.small
  obtain ⟨i, hi, hlast⟩ := hindexed.inside (mapEnd n - 1) (by omega) (by omega)
  rw [pfnToPage_memMap h (by omega) (by omega), descriptor_eq h hi] at hlast
  generalize hj : n.nodeStartPfn - mapStart n + (mapEnd n - 1 - physPfnOffset) = j at hlast
  have hsame := congrArg (memToPhys v) hlast
  rw [memToPhys_physToMem_wrap, memToPhys_physToMem (h.below hi), wrap] at hsame
  obtain ⟨k, hk⟩ := Nat.exists_eq_add_of_le (show i ≤ j by omega)
  have hoffset : physPfnOffset = 0x50000 := rfl
  have hsize : maxOrderNrPages = 1024 := rfl
  have hbytes : k * v.sizeofPage ≤ (2 ^ 20 - 1) * 4096 := Nat.mul_le_mul (by omega) hsmall
  have hbelow := h.below hi
  rw [hk, Nat.add_mul] at hsame
  have hzero : k * v.sizeofPage = 0 := by omega
  have hk0 : k = 0 := (Nat.mul_eq_zero.mp hzero).resolve_right (by omega)
  omega

/-- The map of a node that starts at `PHYS_PFN_OFFSET` starts there. -/
theorem mapStart_first (hstart : n.nodeStartPfn = physPfnOffset) : mapStart n = physPfnOffset := by
  obtain ⟨h1, h2, h3, -⟩ := mapBounds n
  have hoffset : physPfnOffset = 320 * 1024 := rfl
  have hsize : maxOrderNrPages = 1024 := rfl
  rw [hsize] at h3 h2
  omega

/-- The descriptors of such a node are found in order. -/
theorem pfnToPage_first (h : MapFits v n map) (hstart : n.nodeStartPfn = physPfnOffset)
    (hlow : mapStart n ≤ p) (hhigh : p < mapEnd n) :
    pfnToPage v (allocNodeMemMap v n map).2 p =
      physToMem v (map + (p - mapStart n) * v.sizeofPage) := by
  rw [pfnToPage_memMap h hlow hhigh, hstart, mapStart_first hstart, Nat.sub_self, Nat.zero_add]

/-- The memory map of a node is indexed inside its allocation exactly when the node starts at
`PHYS_PFN_OFFSET` and the address of the map is not negative as an `int`. -/
theorem indexed_iff (v : MapBank) (n : Node) (map : ℕ) (h : MapFits v n map) :
    Indexed v n map ↔ n.nodeStartPfn = physPfnOffset ∧ map < 2 ^ 31 := by
  obtain ⟨h1, h2, h3, h4, h5, h6, h7⟩ := mapBounds n
  have hpos := v.positive
  have hsmall := h.small
  constructor
  · intro hindexed
    have hstart := hindexed.starts h
    refine ⟨hstart, ?_⟩
    by_contra hhigh
    have haligned := mapStart_first hstart
    have hfirst : (allocNodeMemMap v n map).2 = map + (2 ^ 64 - 2 ^ 32) := by
      rw [memMap_eq h, hstart, haligned, Nat.sub_self, Nat.zero_mul, Nat.add_zero, if_neg hhigh]
    have hbelow := h.below (i := 0) (by omega)
    rw [Nat.zero_mul, Nat.add_zero] at hbelow
    have hback := hindexed.back (mapStart n) le_rfl (by omega)
    rw [pfnToPage_first h hstart le_rfl (by omega), Nat.sub_self, Nat.zero_mul, Nat.add_zero, pageToPfn,
      memToPhys_physToMem hbelow, hfirst] at hback
    have hdistance : toSigned 64 ((map : ℤ) - ((map + (2 ^ 64 - 2 ^ 32) : ℕ) : ℤ)) = (2 ^ 32 : ℕ) := by
      have hvalue : (map : ℤ) - ((map + (2 ^ 64 - 2 ^ 32) : ℕ) : ℤ) = 2 ^ 32 - 2 ^ 64 := by omega
      rw [hvalue]
      decide
    have hpages : 2 ^ 20 ≤ 2 ^ 32 / v.sizeofPage := by
      rw [Nat.le_div_iff_mul_le hpos]
      omega
    have hbound : 2 ^ 32 / v.sizeofPage ≤ 2 ^ 32 := Nat.div_le_self _ _
    rw [hdistance, ← Int.ofNat_tdiv] at hback
    have hcast := toUnsigned_of_lt (w := 64) (x := ((2 ^ 32 / v.sizeofPage : ℕ) : ℤ) + physPfnOffset)
      (by omega) (by have hoffset : physPfnOffset = 0x50000 := rfl; omega)
    omega
  · rintro ⟨hstart, hlow31⟩
    have haligned := mapStart_first hstart
    have hinside : ∀ p, mapStart n ≤ p → p < mapEnd n → HasDescriptor v n map p := by
      intro p hlow hhigh
      have hi : p - mapStart n < mapEnd n - mapStart n := by omega
      exact ⟨p - mapStart n, hi, by rw [pfnToPage_first h hstart hlow hhigh, descriptor_eq h hi]⟩
    refine ⟨hinside, fun p q hp hp' hq hq' heq => ?_, fun p hp hp' => ?_, fun p order hp hp' ho => ?_⟩
    · rw [pfnToPage_first h hstart hp hp', pfnToPage_first h hstart hq hq'] at heq
      have hsum := physToMem_inj (h.below (by omega)) (h.below (by omega)) heq
      have hmul := Nat.eq_of_mul_eq_mul_right hpos (Nat.add_left_cancel hsum)
      omega
    · have hbelow := h.below (i := p - mapStart n) (by omega)
      have hfirst : (allocNodeMemMap v n map).2 = map := by
        rw [memMap_eq h, hstart, haligned, Nat.sub_self, Nat.zero_mul, Nat.add_zero, if_pos hlow31]
      have hdistance : toSigned 64 (((map + (p - mapStart n) * v.sizeofPage : ℕ) : ℤ) - map) =
          (p - mapStart n : ℕ) * (v.sizeofPage : ℤ) := by
        have hbytes : ((map + (p - mapStart n) * v.sizeofPage : ℕ) : ℤ) - map =
            ((p - mapStart n) * v.sizeofPage : ℕ) := by omega
        rw [hbytes, toSigned_of_lt (by decide) (by omega), Nat.cast_mul]
      rw [pfnToPage_first h hstart hp hp', pageToPfn, memToPhys_physToMem hbelow, hfirst, hdistance,
        Int.mul_tdiv_cancel _ (by omega)]
      have hpfn : ((p - mapStart n : ℕ) : ℤ) + (physPfnOffset : ℕ) = (p : ℕ) := by omega
      rw [hpfn]
      have hcast := toUnsigned_of_lt (w := 64) (Int.natCast_nonneg p) (by omega)
      exact_mod_cast hcast
    · obtain ⟨hlow, hhigh⟩ := buddy_inside n hp hp' ho
      exact hinside _ hlow hhigh

/-- Descriptors of 64 bytes in a bank translated one to one. -/
def plainBank : MapBank := ⟨0, 64, by decide⟩

/-- A node of three frames that starts a page behind `PHYS_PFN_OFFSET`. -/
def lateNode : Node := ⟨0x50001, 3, by decide, by decide, by decide⟩

/-- The node that starts at `PHYS_PFN_OFFSET` is indexed inside its allocation. -/
theorem indexed_iff_first :
    Indexed plainBank ⟨0x50000, 3, by decide, by decide, by decide⟩ 0x50100000 :=
  (indexed_iff plainBank ⟨0x50000, 3, by decide, by decide, by decide⟩ 0x50100000
    ⟨by decide +kernel, by decide⟩).mpr ⟨rfl, by decide⟩

/-- The last frame of the map of a node that starts later is taken behind the allocation. -/
theorem lateNode_counterexample :
    MapFits plainBank lateNode 0x50100000 ∧
      (mapStart lateNode = 0x50000 ∧ mapEnd lateNode = 0x50400) ∧
      pfnToPage plainBank (allocNodeMemMap plainBank lateNode 0x50100000).2 0x503FF =
        0x50100000 + 1024 * 64 ∧
      ¬HasDescriptor plainBank lateNode 0x50100000 0x503FF ∧
      ¬Indexed plainBank lateNode 0x50100000 := by
  have hbounds : mapStart lateNode = 0x50000 ∧ mapEnd lateNode = 0x50400 := by decide +kernel
  have hplace : pfnToPage plainBank (allocNodeMemMap plainBank lateNode 0x50100000).2 0x503FF =
      0x50100000 + 1024 * 64 := by decide +kernel
  have hfits : MapFits plainBank lateNode 0x50100000 := ⟨by decide +kernel, by decide⟩
  have hnone : ¬HasDescriptor plainBank lateNode 0x50100000 0x503FF := by
    rintro ⟨i, hi, heq⟩
    rw [hplace, descriptor_eq hfits hi] at heq
    have hback := congrArg (memToPhys plainBank) heq
    rw [memToPhys_physToMem (hfits.below hi)] at hback
    have hvalue : memToPhys plainBank (0x50100000 + 1024 * 64) = 0x50100000 + 1024 * 64 := by
      decide +kernel
    rw [hvalue] at hback
    rw [hbounds.1, hbounds.2] at hi
    have hbytes : plainBank.sizeofPage = 64 := rfl
    rw [hbytes] at hback
    omega
  exact ⟨hfits, hbounds, hplace, hnone, fun h =>
    hnone (h.inside _ (by rw [hbounds.1]; decide) (by rw [hbounds.2]; decide))⟩

end BiscuitOS.MemMap
