import BiscuitOS.ArmBootmem
import BiscuitOS.BootmemHandOver

/-!
# From the region tables to the page allocator

The two hand-overs with everything between them: `arm_bootmem_init` fills a
node, any calls of the boot allocator use it, and `free_all_bootmem_core`
releases what is left. Of a node whose last word is only partly used the
hand-over reads no word behind it.
-/

namespace BiscuitOS.BootRelease

open MachineWord WordBitmap BootArch BootmemModel BootmemReserve BootmemSearch BootmemHistory
  BootmemHandOver TransitionRun MemblockModel MemblockTable ArmBootmem
open PageModel (Page)
open CompoundBlock (Machine)

/-- The bits behind the last page are set as far as the last word goes. -/
def Padded (b : BootmemData) : Prop :=
  ∀ i, b.nodeLowPfn ≤ b.nodeMinPfn + i → i / 32 * 32 < b.nodeLowPfn - b.nodeMinPfn →
    bit b.nodeBootmemMap i = true

/-- The node with all words behind the last one set. -/
def completed (b : BootmemData) : BootmemData :=
  { b with
    nodeBootmemMap := fun i =>
      if i * 32 < b.nodeLowPfn - b.nodeMinPfn then b.nodeBootmemMap i else BitVec.allOnes 32 }

/-- What stays of a node under all calls. -/
structure SamePlace (a b : BootmemData) : Prop where
  /-- The first page. -/
  minPfn : b.nodeMinPfn = a.nodeMinPfn
  /-- The end. -/
  lowPfn : b.nodeLowPfn = a.nodeLowPfn
  /-- The place of the bitmap. -/
  mapAddr : b.mapAddr = a.mapAddr
  /-- The padding of the last word. -/
  padded : Padded a → Padded b

/-- Nobody asked for the page. -/
def Spare (s : BootState) (q : ℕ) : Prop :=
  q ∉ s.reserved ∪ s.first ∧ ∀ r ∈ s.live, q ∉ touched r.1 r.2

/-- The regions lie in the banks of the machine, whose arrays the host has placed so that every
address of a bank comes back from its translation. -/
structure Banked (place : Placement) (m : Memblock) : Prop where
  /-- `MEM0_OFFSET` fits. -/
  offset0 : Offset0Fits place
  /-- `MEM1_OFFSET` fits. -/
  offset1 : Offset1Fits place
  /-- The arrays do not touch. -/
  gap : place.base1 ≠ place.base0 + bank0Size
  /-- The first one does not start with NULL. -/
  null : 0 < place.base0
  /-- All memory is in the banks. -/
  inBanks : ∀ x ∈ bytes m.memory, InBank0 x ∨ InBank1 x

/-- The pages of the block that was reserved for the bitmap. -/
def bitmapBlock (startPfn endPfn bitmap : ℕ) : Set ℕ :=
  touched bitmap (bitmapRequest startPfn endPfn).rounded

/-- What the page allocator gets: each page that is clear or holds the bitmap once, and the others
not at all. Nobody has asked for a clear page, and it is memory of which no byte is reserved, or
was freed explicitly. -/
structure ReleasedOnce (place : Placement) (m m' : Memblock) (b : BootmemData) (s : BootState)
    (mach : Machine) : Prop where
  /-- How often a page is released. -/
  times : ∀ q, timesReleased (freeAllBootmemCore place s.node mach).machine q =
    timesReleased mach q + if ClearPage s.node q ∨ OwnPage place s.node q then 1 else 0
  /-- The number that is counted. -/
  count : (freeAllBootmemCore place s.node mach).machine.releasedPages =
    mach.releasedPages + (freeAllBootmemCore place s.node mach).count
  /-- Where the clear pages come from. -/
  clear : ∀ q, ClearPage s.node q → Spare s q ∧ (q ∈ (initial b).first ∨
    (FreedBy m.memory 0 m.memory.cnt q ∧ ∀ x ∈ bytes m'.reserved, x / 4096 ≠ q))

variable {a b c : BootmemData} {s s' : BootState} {place : Placement} {r : Release}
  {start fin q k n : ℕ} {v aligned : Bool}

/-- The words that the hand-over reads are the same. -/
theorem freeWords_completed (hk : start = b.nodeMinPfn + bitsPerLong * k) :
    freeWords (completed b) aligned r start n = freeWords b aligned r start n := by
  induction n generalizing r start k with
  | zero => rfl
  | succ n ih =>
    have hsize : bitsPerLong = 32 := rfl
    rw [freeWords, freeWords]
    have hlow : (completed b).nodeLowPfn = b.nodeLowPfn := rfl
    rw [hlow]
    by_cases hlt : start < b.nodeLowPfn
    · rw [if_pos hlt, if_pos hlt]
      have hword : freeWord (completed b) aligned r start = freeWord b aligned r start := by
        have hindex : (start - b.nodeMinPfn) / bitsPerLong * 32 < b.nodeLowPfn - b.nodeMinPfn := by
          rw [hsize] at hk ⊢
          omega
        have hsame : (completed b).nodeBootmemMap
            ((start - (completed b).nodeMinPfn) / bitsPerLong) =
            b.nodeBootmemMap ((start - b.nodeMinPfn) / bitsPerLong) := if_pos hindex
        rw [freeWord, freeWord, hsame, hlow]
      have hnext : start + bitsPerLong = b.nodeMinPfn + bitsPerLong * (k + 1) := by
        rw [Nat.mul_succ]
        omega
      rw [hword]
      exact ih hnext
    · rw [if_neg hlt, if_neg hlt]

/-- Nothing but the words that are read matters. -/
theorem freeAllBootmemCore_completed (place : Placement) (m : Machine) :
    freeAllBootmemCore place (completed b) m = freeAllBootmemCore place b m := by
  have hwords : ∀ aligned r n, freeWords (completed b) aligned r b.nodeMinPfn n =
      freeWords b aligned r b.nodeMinPfn n := fun aligned r n =>
    freeWords_completed (show b.nodeMinPfn = b.nodeMinPfn + bitsPerLong * 0 from rfl)
  have hmin : (completed b).nodeMinPfn = b.nodeMinPfn := rfl
  rw [freeAllBootmemCore, freeAllBootmemCore, hmin]
  simp only [hwords]
  rfl

/-- Clear pages are read from words that are kept. -/
theorem clearPage_completed : ClearPage (completed b) q ↔ ClearPage b q := by
  rw [ClearPage, ClearPage]
  refine and_congr_right fun hmin => and_congr_right fun hlow => ?_
  have hindex : (q - b.nodeMinPfn) / 32 * 32 < b.nodeLowPfn - b.nodeMinPfn := by
    have hfrom : b.nodeMinPfn ≤ q := hmin
    have hto : q < b.nodeLowPfn := hlow
    omega
  have hsame : (completed b).nodeBootmemMap ((q - b.nodeMinPfn) / 32) =
      b.nodeBootmemMap ((q - b.nodeMinPfn) / 32) := if_pos hindex
  rw [bit, bit, show (completed b).nodeMinPfn = b.nodeMinPfn from rfl, hsame]

/-- What the hand-over releases of a padded node. -/
theorem freeAllBootmemCore_padded (m : Machine) (hmap : b.mapAddr ≠ 0) (hpad : Padded b) :
    Released m (freeAllBootmemCore place b m).machine
      (fun q => (if ClearPage b q then 1 else 0) + if OwnPage place b q then 1 else 0)
      (freeAllBootmemCore place b m).count := by
  have htail : ∀ i, (completed b).nodeLowPfn - (completed b).nodeMinPfn ≤ i →
      bit (completed b).nodeBootmemMap i = true := fun i hi => by
    have hout : b.nodeLowPfn - b.nodeMinPfn ≤ i := hi
    rw [bit, completed]
    dsimp only
    by_cases hread : i / 32 * 32 < b.nodeLowPfn - b.nodeMinPfn
    · rw [if_pos hread]
      exact hpad i (by omega) hread
    · rw [if_neg hread, BitVec.getLsbD_allOnes, decide_eq_true (Nat.mod_lt i word_pos)]
  have hall := @freeAllBootmemCore_released (completed b) place m hmap htail
  rw [freeAllBootmemCore_completed] at hall
  refine hall.congr (fun q => ?_) rfl
  have hown : OwnPage place (completed b) q ↔ OwnPage place b q := Iff.rfl
  rw [if_congr clearPage_completed rfl rfl, if_congr hown rfl rfl]

/-- Nothing happened. -/
theorem SamePlace.refl (b : BootmemData) : SamePlace b b := ⟨rfl, rfl, rfl, id⟩

/-- One change after another. -/
theorem SamePlace.trans (h : SamePlace a b) (h' : SamePlace b c) : SamePlace a c :=
  ⟨h'.minPfn.trans h.minPfn, h'.lowPfn.trans h.lowPfn, h'.mapAddr.trans h.mapAddr,
    fun hpad => h'.padded (h.padded hpad)⟩

/-- Marking a range. -/
theorem samePlace_of_marked (h : Marked v start fin a b) : SamePlace a b := by
  refine ⟨h.minPfn, h.lowPfn, h.mapAddr, fun hpad i hout hword => ?_⟩
  rw [h.lowPfn, h.minPfn] at hout hword
  rw [h.bits i, if_neg (by omega)]
  exact hpad i hout hword

/-- `__reserve` leaves the bitmap where it is. -/
theorem reserve_mapAddr (b : BootmemData) (sidx eidx flags : ℕ) :
    (BootmemModel.reserve b sidx eidx flags).2.mapAddr = b.mapAddr := by
  rw [BootmemModel.reserve]
  split
  · rfl
  · rfl

/-- An allocation leaves the bitmap where it is. -/
theorem alloc_mapAddr {size align goal limit fuel : ℕ} {found : Option ℕ}
    (hres : allocBootmemCore b size align goal limit fuel = some (found, c)) :
    c.mapAddr = b.mapAddr := by
  rw [allocBootmemCore] at hres
  by_cases hnone : b.mapAddr = 0
  · rw [if_pos hnone, Option.some_inj, Prod.mk.injEq] at hres
    rw [hres.2]
  rw [if_neg hnone] at hres
  by_cases hlow : allocMax b limit ≤ b.nodeMinPfn
  · rw [if_pos hlow, Option.some_inj, Prod.mk.injEq] at hres
    rw [hres.2]
  rw [if_neg hlow, Option.map_eq_some_iff] at hres
  obtain ⟨place, -, hplace⟩ := hres
  cases place with
  | none => rw [(Prod.mk.inj hplace).2]
  | some sidx =>
    rw [← (Prod.mk.inj hplace).2, takeBlock]
    exact reserve_mapAddr _ _ _ _

/-- A call keeps the place of the node, and pages that were reserved at the beginning only
leave. -/
theorem step_samePlace {op : BootOp} (h : Inv s) (ha : Allowed s op) (hs : step s op = some s') :
    SamePlace s.node s'.node ∧ s'.first ⊆ s.first := by
  cases op with
  | reserve addr size flags =>
    have hsize := ha.1
    obtain ⟨b', hres, hr⟩ := @reserve_single s.node (addr / 4096)
      ((addr + size + 4095) / 4096) flags (by omega)
    have hmark : reserveBootmem [s.node] addr size flags =
        markBootmem [s.node] (addr / 4096) ((addr + size + 4095) / 4096) true flags := by
      rw [reserveBootmem, pfnDown, pfnUp, wrap_of_lt (show addr + size < 2 ^ 64 by omega),
        wrap_of_lt hsize]
    rw [step, hmark, hres, Option.some_inj] at hs
    rw [← hs]
    refine ⟨?_, Set.Subset.rfl⟩
    rcases hr.node with ⟨hm, -⟩ | ⟨hm, -⟩
    · exact samePlace_of_marked hm
    · exact samePlace_of_marked hm
  | alloc size align goal limit fuel =>
    rw [step, Option.map_eq_some_iff] at hs
    obtain ⟨⟨region, b'⟩, hres, rfl⟩ := hs
    cases region with
    | none =>
      have hsame := alloc_null hres
      rw [hsame]
      exact ⟨SamePlace.refl _, Set.Subset.rfl⟩
    | some region =>
      obtain ⟨k, sidx, rfl, hplace, htaken⟩ := alloc_taken ha hres
      refine ⟨⟨htaken.minPfn, htaken.lowPfn, alloc_mapAddr hres, fun hpad i hout hword => ?_⟩,
        Set.Subset.rfl⟩
      rw [htaken.lowPfn, htaken.minPfn] at hout hword
      rw [htaken.bits i]
      split
      · rfl
      · exact hpad i hout hword
  | free addr size =>
    have hin : InNode s.node addr size := by
      rcases ha with hlive | hfirst
      · exact (h.inside _ hlive).2
      · exact hfirst.1
    obtain ⟨b', hnode, hm⟩ := freeBootmem_single hin
    rw [step, hnode, Option.some_inj] at hs
    rw [← hs]
    exact ⟨samePlace_of_marked hm, Set.sdiff_subset⟩

/-- So does every sequence of calls. -/
theorem exec_samePlace (b : BootmemData) (hlast : b.lastEndOff = 0) {ops : List BootOp}
    (hops : Admissible step Allowed (initial b) ops) (he : exec step (initial b) ops = some s) :
    Inv s ∧ SamePlace b s.node ∧ s.first ⊆ (initial b).first := by
  have hstep : ∀ u op w, (Inv u ∧ SamePlace b u.node ∧ u.first ⊆ (initial b).first) →
      Allowed u op → step u op = some w →
      Inv w ∧ SamePlace b w.node ∧ w.first ⊆ (initial b).first := by
    rintro u op w ⟨hinv, hsame, hsub⟩ ha hs
    obtain ⟨hnext, hless⟩ := step_samePlace hinv ha hs
    exact ⟨step_inv hinv ha hs, hsame.trans hnext, hless.trans hsub⟩
  exact exec_preserves hstep ⟨initial_inv hlast, SamePlace.refl b, Set.Subset.rfl⟩ hops he

variable {m m' : Memblock} {bdata : BootmemData} {startPfn endPfn bitmap : ℕ}

/-- The bitmap is found again at its page, below the addresses that an `int` cannot hold. -/
theorem bitmapPage_eq (hbank : Banked place m) (hend : 0 < endPfn) (hint : endPfn ≤ 2 ^ 19)
    (hpos : 0 < (bitmapRequest startPfn endPfn).rounded)
    (h : TakenOver place bdata m m' startPfn endPfn bitmap b) (hs : SamePlace b c) :
    c.mapAddr ≠ 0 ∧ bitmapPage place c = bitmap / 4096 := by
  obtain ⟨i, hi, hlow, hhigh⟩ := h.granted.inMemory
  obtain ⟨c0, c1, c2, c3, c4, c5⟩ := BootArch.constants
  have hin := hbank.inBanks bitmap ⟨i, hi, hlow, by omega⟩
  have hpage : InBank0 (bitmap / 4096 * 4096) ∨ InBank1 (bitmap / 4096 * 4096) := by
    rcases hin with ⟨h0, h1⟩ | ⟨h0, h1⟩
    · exact Or.inl ⟨by omega, by omega⟩
    · exact Or.inr ⟨by omega, by omega⟩
  have hnot : bitmap / 4096 * 4096 ≠ maxBank0PhysAddr ∧
      bitmap / 4096 * 4096 ≠ maxBank1PhysAddr ∧ bitmap < 2 ^ 32 := by
    rcases hpage with ⟨h0, h1⟩ | ⟨h0, h1⟩
    · exact ⟨by omega, by omega, by omega⟩
    · exact ⟨by omega, by omega, by omega⟩
  have hphys : pfnPhys (bitmap / 4096) = bitmap / 4096 * 4096 := wrap_of_lt (by omega)
  have hright : PhysRight place (bitmap / 4096 * 4096) :=
    ⟨fun _ => hbank.offset0, fun _ => ⟨hbank.offset1, fun _ => hbank.gap⟩, hnot.1, hnot.2.1⟩
  obtain ⟨x, hx, hback⟩ := (physRoundTrip_iff.mpr hright).1 hpage
  have hmap : c.mapAddr = x := by
    rw [hs.mapAddr, h.mapAddr, hphys, hx]
    rfl
  have hnull : x ≠ 0 := by
    rintro rfl
    rw [memToPhys, if_pos (Or.inl hbank.null)] at hback
    cases hback
  refine ⟨by rwa [hmap], ?_⟩
  have hlimit := h.granted.below
  have hmax : (bitmapRequest startPfn endPfn).max = endPfn * 4096 := by
    simp only [bitmapRequest, pfnToPhys, wrap]
    omega
  rw [hmax, MemblockSearch.searchLimit, if_neg (by omega)] at hlimit
  have hsigned : toSigned 32 ((bitmap / 4096 * 4096 : ℕ) : ℤ) = (bitmap / 4096 * 4096 : ℕ) :=
    toSigned_of_lt (by decide) (by omega)
  have hpages : ((bitmap / 4096 * 4096 : ℕ) : ℤ) / 4096 = (bitmap / 4096 : ℕ) := by omega
  rw [bitmapPage, hmap, hback, Option.getD_some, hsigned, hpages]
  have hcast := toUnsigned_of_lt (w := 64) (Int.natCast_nonneg (bitmap / 4096)) (by omega)
  exact_mod_cast hcast

/-- The pages that the bitmap gives back lie in the block reserved for it, inside the node. -/
theorem ownPage_block (hs : startPfn + 32768 ≤ endPfn) (hf : endPfn ≤ maxPfn)
    (hint : endPfn ≤ 2 ^ 19) (hbank : Banked place m) (hfrom : startPfn * 4096 ≤ bitmap)
    (h : TakenOver place bdata m m' startPfn endPfn bitmap b) (hsame : SamePlace b c)
    (hq : OwnPage place c q) :
    Owns b q ∧ q ∈ bitmapBlock startPfn endPfn bitmap := by
  have hlegal := bitmapRequest_legal hs hf
  have hrounded := (MemblockAllocation.rounded_spec hlegal).1
  have hpos := hlegal.1
  have hmax : maxPfn = 1048576 := by decide
  obtain ⟨-, hpage⟩ := bitmapPage_eq hbank (by omega) hint (by omega) h hsame
  have h64 : wrapSub 64 endPfn startPfn = endPfn - startPfn := wrapSub_of_le (by omega) (by omega)
  have h32 : wrapSub 32 endPfn startPfn = endPfn - startPfn := wrapSub_of_le (by omega) (by omega)
  have hpages : bitmapPages c = bootmemBootmapPages (endPfn - startPfn) := by
    rw [bitmapPages, hsame.lowPfn, hsame.minPfn, h.lowPfn, h.minPfn, h64]
  have hsize : (bitmapRequest startPfn endPfn).size =
      wrap 32 (bootmemBootmapPages (endPfn - startPfn) * 4096) := by
    rw [bitmapRequest, h32]
  have hbelow := h.granted.below
  have hlimit : MemblockSearch.searchLimit m (bitmapRequest startPfn endPfn).max ≤
      endPfn * 4096 := by
    have hto : (bitmapRequest startPfn endPfn).max = wrap 32 (endPfn * 4096) := by
      rw [bitmapRequest, pfnToPhys, wrap_of_lt (show endPfn * 4096 < 2 ^ 64 by omega)]
    have hcut := wrap_lt 32 m.currentLimit
    rw [MemblockSearch.searchLimit, hto, wrap]
    split <;> omega
  have hcount : bootmemBootmapPages (endPfn - startPfn) < 2 ^ 20 := by
    rw [BootmemBootmap.bootmemBootmapPages_eq]
    exact Nat.mod_lt _ (by decide)
  rw [wrap_of_lt (by omega)] at hsize
  obtain ⟨hlow, hhigh⟩ := hq
  rw [hpage] at hlow hhigh
  rw [hpages] at hhigh
  refine ⟨⟨?_, ?_⟩, hlow, ?_⟩
  · rw [h.minPfn]
    omega
  · rw [h.lowPfn]
    omega
  · omega

/-- From sorted, disjoint tables over the banks, through every sequence of calls of the boot
allocator that spare the bitmap, to the page allocator: each page is released at most once, and
what is released is free memory or the bitmap. -/
theorem boot_releasedOnce (place : Placement) (bdata : BootmemData) (memory : Bitmap)
    (depth : ℕ) (hs : startPfn ≤ maxPfn) (hf : endPfn ≤ maxPfn) (hle : startPfn + 32768 ≤ endPfn)
    (hmem : Spaced 0 m.memory) (hres : Spaced 0 m.reserved) (hcnt : m.reserved.cnt ≠ 0)
    (hroom : m.reserved.cnt + 1 < m.reserved.max)
    (habove : ∀ x ∈ bytes m.memory ∪ bytes m.reserved, startPfn * 4096 ≤ x)
    (hfit : ∃ q, MemblockSearch.Fits m (bitmapRequest startPfn endPfn).rounded l1CacheBytes
      (bitmapRequest startPfn endPfn).max q)
    (hbank : Banked place m) (hint : endPfn ≤ 2 ^ 19) (hlast : bdata.lastEndOff = 0) :
    ∃ bitmap b m', armBootmemInit place bdata memory depth startPfn endPfn hs hf m =
        some (bitmap, [b], m') ∧
      ∀ ops s mach, Admissible step Allowed (initial b) ops →
        exec step (initial b) ops = some s → bitmapBlock startPfn endPfn bitmap ⊆ s.first →
        ReleasedOnce place m m' b s mach := by
  obtain ⟨bitmap, b, m', hinit, htaken⟩ := armBootmemInit_takenOver place bdata memory depth hs hf
    hle hmem hres hcnt hroom habove hfit
  refine ⟨bitmap, b, m', hinit, fun ops s mach hops he hkept => ?_⟩
  have hlegal := bitmapRequest_legal hle hf
  have hpos : 0 < (bitmapRequest startPfn endPfn).rounded :=
    lt_of_lt_of_le hlegal.1 (MemblockAllocation.rounded_spec hlegal).1
  obtain ⟨hinv, hsame, -⟩ := exec_samePlace b (htaken.lastEndOff.trans hlast) hops he
  have hpad : Padded b := fun i hout hword => by
    rw [htaken.lowPfn, htaken.minPfn] at hout hword
    exact htaken.padding i hout hword
  have hall := @freeAllBootmemCore_padded s.node place mach
    (bitmapPage_eq hbank (by omega) hint hpos htaken hsame).1 (hsame.padded hpad)
  obtain ⟨i, hi, hlow, hhigh⟩ := htaken.granted.inMemory
  have hfrom : startPfn * 4096 ≤ bitmap :=
    habove bitmap (Or.inl ⟨i, hi, hlow, by omega⟩)
  have hmarked : ∀ q, q ∈ s.reserved ∪ s.first → ¬ClearPage s.node q := fun q hq hclear => by
    have hbit := (hinv.reserved q hq).2
    rw [reservedPage, hclear.2.2] at hbit
    cases hbit
  refine ⟨fun q => ?_, hall.count_eq, fun q hclear => ⟨⟨fun hq => hmarked q hq hclear,
    fun r hr hq => ?_⟩, ?_⟩⟩
  · rw [hall.times_eq]
    by_cases hown : OwnPage place s.node q
    · have hblock := (ownPage_block hle hf hint hbank hfrom htaken hsame hown).2
      have hnot := hmarked q (Or.inr (hkept hblock))
      rw [if_pos hown, if_neg hnot, if_pos (Or.inr hown)]
    · simp only [hown, if_false, or_false, Nat.add_zero]
  · have hbit := (hinv.marked r hr q hq).1
    rw [reservedPage, hclear.2.2] at hbit
    cases hbit
  · have hown : Owns b q := ⟨by rw [← hsame.minPfn]; exact hclear.1,
      by rw [← hsame.lowPfn]; exact hclear.2.1⟩
    by_cases hbit : reservedPage b q = true
    · exact Or.inl ⟨hown, hbit⟩
    · exact Or.inr ((htaken.clear q hown).mp (Bool.not_eq_true _ ▸ hbit))

/-- Two arrays with room between them. -/
def roomyArrays : Placement := ⟨0x10000000, 0x30000000, by decide, by decide⟩

/-- All memory of the tables is in the first bank. -/
theorem bank0Tables_banked : Banked roomyArrays bank0Tables := by
  have h0 : wrapSub 64 bank0Start roomyArrays.base0 < 2 ^ 32 := by decide
  have h1 : wrapSub 64 bank1Start roomyArrays.base1 < 2 ^ 32 := by decide
  refine ⟨h0, h1, by decide, by decide, fun x hx => ?_⟩
  obtain ⟨i, hi, hlow, hhigh⟩ := hx
  have hz : i = 0 := Nat.lt_one_iff.mp hi
  have hregion : bank0Tables.memory.regions 0 = ⟨bank0Start, bank0Size⟩ :=
    MemblockType.setRegion_self _ _ _
  rw [hz, hregion] at hlow hhigh
  exact Or.inl ⟨hlow, hhigh⟩

/-- The first bank on its way to the page allocator. -/
theorem boot_releasedOnce_bank0 :
    ∃ bitmap b m', armBootmemInit roomyArrays bootmemNodeData (fun _ => 0#32) 0 0x50000 0x60000
        (by decide) (by decide) bank0Tables = some (bitmap, [b], m') ∧
      ∀ ops s mach, Admissible step Allowed (initial b) ops →
        exec step (initial b) ops = some s → bitmapBlock 0x50000 0x60000 bitmap ⊆ s.first →
        ReleasedOnce roomyArrays bank0Tables m' b s mach :=
  boot_releasedOnce roomyArrays bootmemNodeData _ 0 _ _ (by decide) bank0Tables_spaced.1
    bank0Tables_spaced.2 (by decide) (by decide) bank0Tables_above ⟨_, bank0Tables_fit⟩
    bank0Tables_banked (by decide) rfl

end BiscuitOS.BootRelease
