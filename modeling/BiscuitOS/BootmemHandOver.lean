import BiscuitOS.BootArch
import BiscuitOS.BootmemBootmap
import BiscuitOS.BootmemSearch
import BiscuitOS.CompoundBlock

/-!
# From the boot allocator to the page allocator

`free_all_bootmem_core` releases a word of clear bits as one block of order
five or bit by bit, and the pages of the bitmap at the end. A release is a
block that reaches `free_hot_cold_page` or `__free_pages_ok`.
-/

namespace BiscuitOS.BootmemHandOver

open MachineWord BootArch PageModel WordBitmap BootmemModel BootmemSearch CompoundBlock

/-- `BITS_PER_LONG`. -/
def bitsPerLong : ℕ := 32

/-- `__ClearPageReserved` and `set_page_count(page,0)`. -/
def clearReserved (m : Machine) (page : ℕ) : Machine :=
  { m with
    pages := setPage m.pages page
      { m.pages page with flags := (m.pages page).flags &&& ~~~flag pgReserved, count := 0 } }

/-- `set_page_refcounted`. -/
def setPageRefcounted (m : Machine) (page : ℕ) : Machine :=
  { m with pages := setPage m.pages page { m.pages page with count := 1 } }

/-- The loop of `__free_pages_bootmem` from `page`, with the pages left. -/
def clearFrom (m : Machine) (page : ℕ) : ℕ → Machine
  | 0 => m
  | n + 1 => clearFrom (clearReserved m page) (page + 1) n

/-- `__free_pages_bootmem`. -/
def freePagesBootmem (m : Machine) (page order : ℕ) : Machine :=
  if order = 0 then freePages (setPageRefcounted (clearReserved m page) page) page 0
  else freePages (setPageRefcounted (clearFrom m page bitsPerLong) page) page order

/-- What `free_all_bootmem_core` changes: the pages, and `count`. -/
structure Release where
  /-- The descriptors and the blocks released. -/
  machine : Machine
  /-- `count`. -/
  count : ℕ

/-- The loop over the bits of a word from `off` on, with the rounds left. -/
def freeBits (r : Release) (start : ℕ) (vec : BitVec 32) (off : ℕ) : ℕ → Release
  | 0 => r
  | n + 1 =>
    if vec ≠ 0#32 ∧ off < bitsPerLong then
      let r :=
        if vec &&& 1#32 ≠ 0#32 then ⟨freePagesBootmem r.machine (start + off) 0, r.count + 1⟩ else r
      freeBits r start (vec >>> 1) (off + 1) n
    else r

/-- One round of the loop over the words. -/
def freeWord (bdata : BootmemData) (aligned : Bool) (r : Release) (start : ℕ) : Release :=
  let vec := ~~~bdata.nodeBootmemMap ((start - bdata.nodeMinPfn) / bitsPerLong)
  if aligned ∧ vec = BitVec.allOnes 32 ∧ start + bitsPerLong < bdata.nodeLowPfn then
    ⟨freePagesBootmem r.machine start 5, r.count + bitsPerLong⟩
  else freeBits r start vec 0 bitsPerLong

/-- The loop over the words from `start` on, with the rounds left. -/
def freeWords (bdata : BootmemData) (aligned : Bool) (r : Release) (start : ℕ) : ℕ → Release
  | 0 => r
  | n + 1 =>
    if start < bdata.nodeLowPfn then
      freeWords bdata aligned (freeWord bdata aligned r start) (start + bitsPerLong) n
    else r

/-- The loop over the pages of the bitmap, with the pages left. -/
def freeOwn (m : Machine) (page : ℕ) : ℕ → Machine
  | 0 => m
  | n + 1 => freeOwn (freePagesBootmem m page 0) (page + 1) n

/-- The page of the bitmap. `mm/bootmem.c` has no prototype of `mem_to_phys`, so its result is an
`int` there. -/
def bitmapPage (p : Placement) (bdata : BootmemData) : ℕ :=
  toUnsigned 64 (toSigned 32 ((memToPhys p bdata.mapAddr).getD 0) / 4096)

/-- The number of pages that the bitmap gives back. -/
def bitmapPages (bdata : BootmemData) : ℕ :=
  bootmemBootmapPages (wrapSub 64 bdata.nodeLowPfn bdata.nodeMinPfn)

/-- `free_all_bootmem_core`; a round advances by more than one page. -/
def freeAllBootmemCore (p : Placement) (bdata : BootmemData) (m : Machine) : Release :=
  if bdata.mapAddr = 0 then ⟨m, 0⟩
  else
    let aligned := bdata.nodeMinPfn &&& (bitsPerLong - 1) = 0
    let r := freeWords bdata aligned ⟨m, 0⟩ bdata.nodeMinPfn (bdata.nodeLowPfn - bdata.nodeMinPfn)
    ⟨freeOwn r.machine (bitmapPage p bdata) (bitmapPages bdata), r.count + bitmapPages bdata⟩

/-- How often a page was released. -/
def timesReleased (m : Machine) (page : ℕ) : ℕ :=
  m.released.countP fun b => b.1 ≤ page ∧ page < b.1 + 2 ^ b.2

/-- A page of the node whose bit is clear. -/
def ClearPage (bdata : BootmemData) (page : ℕ) : Prop :=
  bdata.nodeMinPfn ≤ page ∧ page < bdata.nodeLowPfn ∧
    bit bdata.nodeBootmemMap (page - bdata.nodeMinPfn) = false

/-- A page that the bitmap gives back. -/
def OwnPage (p : Placement) (bdata : BootmemData) (page : ℕ) : Prop :=
  bitmapPage p bdata ≤ page ∧ page < bitmapPage p bdata + bitmapPages bdata

/-- The descriptor of a page after its release. -/
def releasedPage (p : Page) : Page := { p with flags := p.flags &&& ~~~flag pgReserved, count := 0 }

/-- The pages were released, each so often, `count` in all; the others are as they were. -/
structure Released (m m' : Machine) (times : ℕ → ℕ) (count : ℕ) : Prop where
  times_eq : ∀ q, timesReleased m' q = timesReleased m q + times q
  count_eq : m'.releasedPages = m.releasedPages + count
  pages_eq : ∀ q, m'.pages q = if times q = 0 then m.pages q else releasedPage (m.pages q)

variable {m m' m'' : Machine} {times times' : ℕ → ℕ} {page start off n k count count' : ℕ}
  {b : BootmemData} {vec : BitVec 32}

/-- One release after another. -/
theorem Released.trans (h : Released m m' times count) (h' : Released m' m'' times' count') :
    Released m m'' (fun q => times q + times' q) (count + count') where
  times_eq q := by rw [h'.times_eq, h.times_eq, Nat.add_assoc]
  count_eq := by rw [h'.count_eq, h.count_eq, Nat.add_assoc]
  pages_eq q := by
    have htwice : ∀ p, releasedPage (releasedPage p) = releasedPage p := fun p => by
      simp only [releasedPage, BitVec.and_assoc, BitVec.and_self]
    rw [h'.pages_eq, h.pages_eq]
    by_cases h1 : times q = 0
    · by_cases h2 : times' q = 0
      · rw [if_pos h1, if_pos h2, if_pos (by omega)]
      · rw [if_pos h1, if_neg h2, if_neg (by omega)]
    · by_cases h2 : times' q = 0
      · rw [if_neg h1, if_pos h2, if_neg (by omega)]
      · rw [if_neg h1, if_neg h2, if_neg (by omega), htwice]

/-- Nothing was released. -/
theorem Released.refl (m : Machine) : Released m m (fun _ => 0) 0 :=
  ⟨fun _ => rfl, rfl, fun _ => (if_pos rfl).symm⟩

/-- What was released is given pointwise. -/
theorem Released.congr (h : Released m m' times count) (ht : ∀ q, times q = times' q)
    (hc : count = count') : Released m m' times' count' := by
  have hfun : times = times' := funext ht
  rwa [hfun, hc] at h

/-- The descriptors after the loop of `__free_pages_bootmem`. -/
theorem clearFrom_spec (m : Machine) (page n : ℕ) :
    (clearFrom m page n).released = m.released ∧
      ∀ q, (clearFrom m page n).pages q =
        if page ≤ q ∧ q < page + n then releasedPage (m.pages q) else m.pages q := by
  induction n generalizing m page with
  | zero => exact ⟨rfl, fun q => (if_neg (by omega)).symm⟩
  | succ n ih =>
    obtain ⟨hreleased, hpages⟩ := ih (clearReserved m page) (page + 1)
    refine ⟨hreleased, fun q => ?_⟩
    rw [clearFrom, hpages]
    by_cases hq : q = page
    · subst hq
      rw [if_neg (by omega), if_pos (by omega)]
      exact setPage_self _ _ _
    · have hother : (clearReserved m page).pages q = m.pages q := setPage_other _ hq _
      rw [hother]
      by_cases hin : page + 1 ≤ q ∧ q < page + 1 + n
      · rw [if_pos hin, if_pos (by omega)]
      · rw [if_neg hin, if_neg (by omega)]

/-- Freeing a block whose first page is referenced once. -/
theorem freePages_released (m : Machine) (page order : ℕ)
    (hrest : ∀ q, page ≤ q → q < page + 2 ^ order → m.pages q = releasedPage (m.pages q)) :
    Released m (freePages (setPageRefcounted m page) page order)
      (fun q => if page ≤ q ∧ q < page + 2 ^ order then 1 else 0) (2 ^ order) := by
  have hcount : ((addCount (setPageRefcounted m page) page (-1)).pages page).count = 0 := by
    simp only [addCount, setPageRefcounted, setPage_self]
    rfl
  have hfree : freePages (setPageRefcounted m page) page order =
      release page order (addCount (setPageRefcounted m page) page (-1)) := if_pos hcount
  have hpos := Nat.two_pow_pos order
  rw [hfree]
  refine ⟨fun q => ?_, ?_, fun q => ?_⟩
  · have hcons : timesReleased
        (release page order (addCount (setPageRefcounted m page) page (-1))) q =
        (m.released.countP fun b => b.1 ≤ q ∧ q < b.1 + 2 ^ b.2) +
          if (decide (page ≤ q ∧ q < page + 2 ^ order)) = true then 1 else 0 := List.countP_cons
    rw [hcons]
    simp only [decide_eq_true_eq]
    rfl
  · have hsum : (release page order (addCount (setPageRefcounted m page) page (-1))).releasedPages =
        2 ^ order + m.releasedPages := List.sum_cons
    rw [hsum, Nat.add_comm]
  · have hsame : (release page order (addCount (setPageRefcounted m page) page (-1))).pages q =
        if q = page then { m.pages q with count := 0 } else m.pages q := by
      by_cases hq : q = page
      · subst hq
        rw [if_pos rfl]
        simp only [release, addCount, setPageRefcounted, setPage_self]
        rfl
      · rw [if_neg hq]
        simp only [release, addCount, setPageRefcounted, setPage_other _ hq]
    rw [hsame]
    by_cases hin : page ≤ q ∧ q < page + 2 ^ order
    · rw [if_pos hin, if_neg Nat.one_ne_zero, ← hrest q hin.1 hin.2]
      have hzero : (m.pages q).count = 0 := by
        rw [hrest q hin.1 hin.2]
        rfl
      split
      · rw [← hzero]
      · rfl
    · rw [if_neg hin, if_pos rfl, if_neg (by omega)]

/-- Freeing a block whose descriptors were cleared. -/
theorem freePages_cleared (m : Machine) (page order : ℕ) :
    Released m (freePages (setPageRefcounted (clearFrom m page (2 ^ order)) page) page order)
      (fun q => if page ≤ q ∧ q < page + 2 ^ order then 1 else 0) (2 ^ order) := by
  obtain ⟨hreleased, hpages⟩ := clearFrom_spec m page (2 ^ order)
  have hfree := freePages_released (clearFrom m page (2 ^ order)) page order fun q h1 h2 => by
    rw [hpages, if_pos ⟨h1, h2⟩]
    simp only [releasedPage, BitVec.and_assoc, BitVec.and_self]
  refine ⟨fun q => ?_, ?_, fun q => ?_⟩
  · rw [hfree.times_eq, timesReleased, hreleased, timesReleased]
  · rw [hfree.count_eq, Machine.releasedPages, hreleased, Machine.releasedPages]
  · rw [hfree.pages_eq, hpages]
    by_cases hin : page ≤ q ∧ q < page + 2 ^ order
    · simp only [hin, releasedPage, BitVec.and_assoc, BitVec.and_self, if_true, and_self,
        Nat.one_ne_zero, if_false]
    · rw [if_neg hin, if_pos rfl, if_neg hin, if_pos rfl]

/-- A single page. -/
theorem freePagesBootmem_zero (m : Machine) (page : ℕ) :
    Released m (freePagesBootmem m page 0) (fun q => if q = page then 1 else 0) 1 :=
  (freePages_cleared m page 0).congr (fun q => if_congr (by omega) rfl rfl) rfl

/-- A block of a word. -/
theorem freePagesBootmem_word (m : Machine) (page : ℕ) :
    Released m (freePagesBootmem m page 5)
      (fun q => if page ≤ q ∧ q < page + bitsPerLong then 1 else 0) bitsPerLong :=
  freePages_cleared m page 5

/-- Whether the lowest bit is set. -/
theorem and_one_ne_zero (vec : BitVec 32) : vec &&& 1#32 ≠ 0#32 ↔ vec.getLsbD 0 = true := by
  have hlow := (shifted_eq_zero_iff vec 0).not
  rw [BitVec.ushiftRight_zero] at hlow
  rw [ne_eq, hlow, Bool.not_eq_false]

/-- The pages of the bits that the loop over a word still has ahead. -/
def Ahead (vec : BitVec 32) (page n q : ℕ) : Prop :=
  page ≤ q ∧ q < page + n ∧ vec.getLsbD (q - page) = true

instance (vec : BitVec 32) (page n q : ℕ) : Decidable (Ahead vec page n q) :=
  inferInstanceAs (Decidable (_ ∧ _ ∧ _))

/-- The first bit and the bits behind it. -/
theorem ahead_succ (vec : BitVec 32) (page n q : ℕ) :
    Ahead vec page (n + 1) q ↔
      (q = page ∧ vec.getLsbD 0 = true) ∨ Ahead (vec >>> 1) (page + 1) n q := by
  have hshift : ∀ i, (vec >>> 1).getLsbD i = vec.getLsbD (1 + i) := fun i =>
    BitVec.getLsbD_ushiftRight _ _ _
  simp only [Ahead, hshift]
  constructor
  · rintro ⟨hlow, hhigh, hbit⟩
    rcases Nat.eq_or_lt_of_le hlow with rfl | hlt
    · left
      rw [Nat.sub_self] at hbit
      exact ⟨rfl, hbit⟩
    · right
      have hidx : 1 + (q - (page + 1)) = q - page := by omega
      exact ⟨hlt, by omega, by rw [hidx]; exact hbit⟩
  · rintro (⟨rfl, hbit⟩ | ⟨hlow, hhigh, hbit⟩)
    · exact ⟨le_rfl, by omega, by rw [Nat.sub_self]; exact hbit⟩
    · have hidx : 1 + (q - (page + 1)) = q - page := by omega
      rw [hidx] at hbit
      exact ⟨by omega, by omega, hbit⟩

/-- The loop over the bits of a word. -/
theorem freeBits_released (r : Release) (start : ℕ) (vec : BitVec 32) (off n : ℕ)
    (hn : off + n = bitsPerLong) :
    ∃ count, (freeBits r start vec off n).count = r.count + count ∧
      Released r.machine (freeBits r start vec off n).machine
        (fun q => if Ahead vec (start + off) n q then 1 else 0) count := by
  induction n generalizing r vec off with
  | zero =>
    refine ⟨0, rfl, (Released.refl r.machine).congr (fun q => (if_neg ?_).symm) rfl⟩
    intro hq
    have hlow := hq.1
    have hhigh := hq.2.1
    omega
  | succ n ih =>
    rw [freeBits]
    by_cases hvec : vec = 0#32
    · rw [if_neg (by simp only [hvec, ne_eq, not_true_eq_false, false_and, not_false_eq_true])]
      refine ⟨0, rfl, (Released.refl r.machine).congr (fun q => (if_neg ?_).symm) rfl⟩
      intro hq
      have hbit := hq.2.2
      rw [hvec, BitVec.getLsbD_zero] at hbit
      cases hbit
    · have hoff : off < bitsPerLong := by omega
      rw [if_pos ⟨hvec, hoff⟩]
      have hnext : start + off + 1 = start + (off + 1) := Nat.add_assoc _ _ _
      by_cases hbit : vec.getLsbD 0 = true
      · rw [if_pos ((and_one_ne_zero vec).mpr hbit)]
        obtain ⟨count, hcount, hrest⟩ :=
          ih ⟨freePagesBootmem r.machine (start + off) 0, r.count + 1⟩ (vec >>> 1) (off + 1)
            (by omega)
        refine ⟨1 + count, hcount.trans (Nat.add_assoc _ _ _),
          ((freePagesBootmem_zero r.machine (start + off)).trans hrest).congr (fun q => ?_) rfl⟩
        by_cases hq : q = start + off
        · have hnot : ¬Ahead (vec >>> 1) (start + (off + 1)) n q := fun h => by
            have hlow := h.1
            omega
          rw [if_pos hq, if_neg hnot, if_pos ((ahead_succ _ _ _ _).mpr (Or.inl ⟨hq, hbit⟩))]
        · have hiff : Ahead vec (start + off) (n + 1) q ↔
              Ahead (vec >>> 1) (start + (off + 1)) n q := by
            rw [ahead_succ, hnext]
            exact or_iff_right fun h => hq h.1
          rw [if_neg hq, Nat.zero_add, if_congr hiff rfl rfl]
      · rw [if_neg (mt (and_one_ne_zero vec).mp hbit)]
        obtain ⟨count, hcount, hrest⟩ := ih r (vec >>> 1) (off + 1) (by omega)
        refine ⟨count, hcount, hrest.congr (fun q => if_congr ?_ rfl rfl) rfl⟩
        rw [ahead_succ, hnext]
        exact (or_iff_right fun h => hbit h.2).symm

/-- The block and the bits release the same pages. -/
theorem ahead_allOnes (start q : ℕ) :
    Ahead (BitVec.allOnes 32) start bitsPerLong q ↔ start ≤ q ∧ q < start + bitsPerLong := by
  refine ⟨fun h => ⟨h.1, h.2.1⟩, fun h => ⟨h.1, h.2, ?_⟩⟩
  have hin : q - start < 32 := by
    have hhigh := h.2
    rw [bitsPerLong] at hhigh
    omega
  rw [BitVec.getLsbD_allOnes, decide_eq_true hin]

/-- One word. -/
theorem freeWord_released (aligned : Bool) (r : Release) (start : ℕ) :
    ∃ count, (freeWord b aligned r start).count = r.count + count ∧
      Released r.machine (freeWord b aligned r start).machine
        (fun q => if Ahead (~~~b.nodeBootmemMap ((start - b.nodeMinPfn) / bitsPerLong)) start
          bitsPerLong q then 1 else 0) count := by
  rw [freeWord]
  split
  · next hfast =>
    rw [hfast.2.1]
    exact ⟨bitsPerLong, rfl, (freePagesBootmem_word r.machine start).congr
      (fun q => if_congr (ahead_allOnes start q).symm rfl rfl) rfl⟩
  · exact freeBits_released r start _ 0 bitsPerLong (Nat.zero_add _)

/-- The pages of a word are those of its clear bits. -/
theorem ahead_word (k q : ℕ) (h0 : b.nodeMinPfn ≤ start)
    (hk : start - b.nodeMinPfn = bitsPerLong * k) :
    Ahead (~~~b.nodeBootmemMap ((start - b.nodeMinPfn) / bitsPerLong)) start bitsPerLong q ↔
      start ≤ q ∧ q < start + bitsPerLong ∧ bit b.nodeBootmemMap (q - b.nodeMinPfn) = false := by
  refine and_congr_right fun hlow => and_congr_right fun hhigh => ?_
  rw [show bitsPerLong = 32 from rfl] at *
  have hword : (q - b.nodeMinPfn) / 32 = (start - b.nodeMinPfn) / 32 := by omega
  have hplace : (q - b.nodeMinPfn) % 32 = q - start := by omega
  have hlt : q - start < 32 := by omega
  rw [bit, hword, hplace, BitVec.getLsbD_not, decide_eq_true hlt, Bool.true_and, Bool.not_eq_true']

/-- The loop over the words from a word on. -/
theorem freeWords_released (aligned : Bool) (n : ℕ) (htail : ∀ i, b.nodeLowPfn - b.nodeMinPfn ≤ i →
      bit b.nodeBootmemMap i = true) : ∀ (r : Release) (k : ℕ),
    b.nodeLowPfn ≤ b.nodeMinPfn + bitsPerLong * k + n →
    ∃ count, (freeWords b aligned r (b.nodeMinPfn + bitsPerLong * k) n).count = r.count + count ∧
      Released r.machine (freeWords b aligned r (b.nodeMinPfn + bitsPerLong * k) n).machine
        (fun q => if b.nodeMinPfn + bitsPerLong * k ≤ q ∧ q < b.nodeLowPfn ∧
          bit b.nodeBootmemMap (q - b.nodeMinPfn) = false then 1 else 0) count := by
  induction n with
  | zero =>
    intro r k hk
    refine ⟨0, rfl, (Released.refl r.machine).congr (fun q => (if_neg ?_).symm) rfl⟩
    intro hq
    have hlow := hq.1
    have hhigh := hq.2.1
    omega
  | succ n ih =>
    intro r k hk
    rw [freeWords]
    by_cases hlt : b.nodeMinPfn + bitsPerLong * k < b.nodeLowPfn
    · rw [if_pos hlt]
      have hnext : b.nodeMinPfn + bitsPerLong * k + bitsPerLong =
          b.nodeMinPfn + bitsPerLong * (k + 1) := by rw [Nat.mul_succ, Nat.add_assoc]
      have hsize : 0 < bitsPerLong := by decide
      obtain ⟨first, hfirst, hword⟩ :=
        freeWord_released (b := b) aligned r (b.nodeMinPfn + bitsPerLong * k)
      obtain ⟨count, hcount, hrest⟩ :=
        ih (freeWord b aligned r (b.nodeMinPfn + bitsPerLong * k)) (k + 1) (by omega)
      rw [hnext]
      refine ⟨first + count, by rw [hcount, hfirst, Nat.add_assoc],
        (hword.trans hrest).congr (fun q => ?_) rfl⟩
      have hahead := ahead_word k q (Nat.le_add_right b.nodeMinPfn (bitsPerLong * k))
        (Nat.add_sub_cancel_left _ _)
      rw [if_congr hahead rfl rfl, ← hnext]
      by_cases hbit : bit b.nodeBootmemMap (q - b.nodeMinPfn) = false
      · have hin : q - b.nodeMinPfn < b.nodeLowPfn - b.nodeMinPfn := by
          by_contra hout
          rw [htail _ (Nat.le_of_not_lt hout)] at hbit
          cases hbit
        simp only [hbit, and_true]
        by_cases hlow : b.nodeMinPfn + bitsPerLong * k ≤ q
        · by_cases hhigh : q < b.nodeMinPfn + bitsPerLong * k + bitsPerLong
          · rw [if_pos ⟨hlow, hhigh⟩, if_neg (by omega), if_pos (by omega)]
          · rw [if_neg (by omega), if_pos (by omega), if_pos (by omega)]
        · rw [if_neg (by omega), if_neg (by omega), if_neg (by omega)]
      · rw [if_neg (fun h => hbit h.2.2), if_neg (fun h => hbit h.2.2),
          if_neg (fun h => hbit h.2.2)]
    · rw [if_neg hlt]
      refine ⟨0, rfl, (Released.refl r.machine).congr (fun q => (if_neg ?_).symm) rfl⟩
      intro hq
      have hlow := hq.1
      have hhigh := hq.2.1
      omega

/-- The loop over the pages of the bitmap. -/
theorem freeOwn_released (m : Machine) (page n : ℕ) :
    Released m (freeOwn m page n) (fun q => if page ≤ q ∧ q < page + n then 1 else 0) n := by
  induction n generalizing m page with
  | zero => exact (Released.refl m).congr (fun q => (if_neg (by omega)).symm) rfl
  | succ n ih =>
    refine ((freePagesBootmem_zero m page).trans (ih _ (page + 1))).congr (fun q => ?_)
      (Nat.add_comm 1 n)
    by_cases hq : q = page
    · rw [if_pos hq, if_neg (by omega), if_pos (by omega)]
    · by_cases hin : page + 1 ≤ q ∧ q < page + 1 + n
      · rw [if_neg hq, if_pos hin, if_pos (by omega)]
      · rw [if_neg hq, if_neg hin, if_neg (by omega)]

instance (b : BootmemData) (page : ℕ) : Decidable (ClearPage b page) :=
  inferInstanceAs (Decidable (_ ∧ _ ∧ _))

instance (p : Placement) (b : BootmemData) (page : ℕ) : Decidable (OwnPage p b page) :=
  inferInstanceAs (Decidable (_ ∧ _))

/-- What the hand-over releases. -/
theorem freeAllBootmemCore_released (p : Placement) (m : Machine) (hmap : b.mapAddr ≠ 0)
    (htail : ∀ i, b.nodeLowPfn - b.nodeMinPfn ≤ i → bit b.nodeBootmemMap i = true) :
    Released m (freeAllBootmemCore p b m).machine
      (fun q => (if ClearPage b q then 1 else 0) + if OwnPage p b q then 1 else 0)
      (freeAllBootmemCore p b m).count := by
  rw [freeAllBootmemCore, if_neg hmap]
  obtain ⟨count, hcount, hwords⟩ := freeWords_released
    (b.nodeMinPfn &&& (bitsPerLong - 1) = 0) (b.nodeLowPfn - b.nodeMinPfn) htail ⟨m, 0⟩ 0 (by omega)
  rw [Nat.mul_zero, Nat.add_zero] at hcount hwords
  dsimp only at hcount hwords ⊢
  rw [hcount, Nat.zero_add]
  exact (hwords.trans (freeOwn_released _ _ _)).congr (fun q => rfl) rfl

/-- The bits of a whole word, one by one. -/
theorem freeBits_word (m : Machine) (start : ℕ) :
    Released m (freeBits ⟨m, 0⟩ start (BitVec.allOnes 32) 0 bitsPerLong).machine
      (fun q => if start ≤ q ∧ q < start + bitsPerLong then 1 else 0) bitsPerLong := by
  obtain ⟨count, hcount, hbits⟩ :=
    freeBits_released ⟨m, 0⟩ start (BitVec.allOnes 32) 0 bitsPerLong (Nat.zero_add _)
  have hall : (freeBits ⟨m, 0⟩ start (BitVec.allOnes 32) 0 bitsPerLong).count = bitsPerLong := rfl
  refine hbits.congr (fun q => if_congr (ahead_allOnes start q) rfl rfl) ?_
  rw [hall, Nat.zero_add] at hcount
  exact hcount.symm

/-- Both ways to release a word of clear bits leave the same pages released, the same number of
them and the same descriptors. -/
structure SameRelease (m m' : Machine) : Prop where
  times_eq : ∀ q, timesReleased m q = timesReleased m' q
  count_eq : m.releasedPages = m'.releasedPages
  pages_eq : ∀ q, m.pages q = m'.pages q

/-- The hand-over releases each page of the node whose bit is clear once, and the pages of the
bitmap once more; it counts them all. A word released as a block is released like its bits. -/
theorem freeAllBootmemCore_releases (p : Placement) (b : BootmemData) (m : Machine)
    (hmap : b.mapAddr ≠ 0)
    (htail : ∀ i, b.nodeLowPfn - b.nodeMinPfn ≤ i → bit b.nodeBootmemMap i = true) :
    (∀ q, timesReleased (freeAllBootmemCore p b m).machine q = timesReleased m q +
      ((if ClearPage b q then 1 else 0) + if OwnPage p b q then 1 else 0)) ∧
    (freeAllBootmemCore p b m).machine.releasedPages =
      m.releasedPages + (freeAllBootmemCore p b m).count ∧
    ∀ (m : Machine) (start : ℕ), SameRelease (freePagesBootmem m start 5)
      (freeBits ⟨m, 0⟩ start (BitVec.allOnes 32) 0 bitsPerLong).machine := by
  have hall := freeAllBootmemCore_released p m hmap htail
  refine ⟨hall.times_eq, hall.count_eq, fun m start => ?_⟩
  have hblock := freePagesBootmem_word m start
  have hbits := freeBits_word m start
  exact ⟨fun q => (hblock.times_eq q).trans (hbits.times_eq q).symm,
    hblock.count_eq.trans hbits.count_eq.symm,
    fun q => (hblock.pages_eq q).trans (hbits.pages_eq q).symm⟩

/-- All pages are reserved, and nothing was released yet. -/
def untouched : Machine := ⟨fun _ => ⟨flag pgReserved, 0, -1, 0, 0, 0⟩, 0, [], []⟩

/-- Arrays of the host for which both offsets fit. -/
def lowArrays : Placement := ⟨0x10000000, 0x20000000, by decide, by decide⟩

/-- A node of the first bank with all pages clear and its bitmap in the fifth of them. -/
def clearNode (pages : Fin 65536) : BootmemData where
  nodeMinPfn := 0x50000
  nodeLowPfn := 0x50000 + pages.val
  mapAddr := 0x10004000
  nodeBootmemMap := clearBits (fun _ => BitVec.allOnes 32) 0 pages.val
  lastEndOff := 0
  hintIdx := 0
  lowPfn_le := by
    have hmax : maxPfn = 1048576 := by decide
    omega
  minPfn_le := by decide

/-- The bits of the node. -/
theorem clearNode_bit (pages : Fin 65536) (i : ℕ) :
    bit (clearNode pages).nodeBootmemMap i = !decide (i < pages.val) := by
  have hones : bit (fun _ => BitVec.allOnes 32 : Words 32) i = true := by
    rw [bit, BitVec.getLsbD_allOnes, decide_eq_true (Nat.mod_lt i (by decide))]
  have hclear := bit_clearBits (by decide) pages.val (fun _ => BitVec.allOnes 32 : Words 32) 0 i
  rw [clearNode]
  dsimp only
  have hrange : (0 ≤ i ∧ i < 0 + pages.val) ↔ i < pages.val := by omega
  rw [hclear, hones, Bool.and_true, decide_eq_decide.mpr hrange]

/-- The bits beyond the last page are set. -/
theorem clearNode_tail (pages : Fin 65536) (i : ℕ)
    (hi : (clearNode pages).nodeLowPfn - (clearNode pages).nodeMinPfn ≤ i) :
    bit (clearNode pages).nodeBootmemMap i = true := by
  have hpages : pages.val ≤ i := by
    rw [clearNode] at hi
    dsimp only at hi
    omega
  rw [clearNode_bit, decide_eq_false (Nat.not_lt.mpr hpages)]
  rfl

/-- A node of forty pages: one word as a block, and eight bits. -/
theorem freeAllBootmemCore_releases_forty :
    (∀ q, timesReleased (freeAllBootmemCore lowArrays (clearNode 40) untouched).machine q =
      timesReleased untouched q + ((if ClearPage (clearNode 40) q then 1 else 0) +
        if OwnPage lowArrays (clearNode 40) q then 1 else 0)) ∧
    (freeAllBootmemCore lowArrays (clearNode 40) untouched).machine.releasedPages =
      untouched.releasedPages + (freeAllBootmemCore lowArrays (clearNode 40) untouched).count ∧
    ∀ (m : Machine) (start : ℕ), SameRelease (freePagesBootmem m start 5)
      (freeBits ⟨m, 0⟩ start (BitVec.allOnes 32) 0 bitsPerLong).machine :=
  freeAllBootmemCore_releases lowArrays (clearNode 40) untouched (by decide) (clearNode_tail 40)

/-- In a node of 32768 pages with all bits clear, the page of the bitmap is released twice. -/
theorem ownPage_counterexample :
    (clearNode 32768).mapAddr ≠ 0 ∧
      (∀ i, (clearNode 32768).nodeLowPfn - (clearNode 32768).nodeMinPfn ≤ i →
        bit (clearNode 32768).nodeBootmemMap i = true) ∧
      ClearPage (clearNode 32768) 0x50004 ∧ timesReleased untouched 0x50004 = 0 ∧
      timesReleased (freeAllBootmemCore lowArrays (clearNode 32768) untouched).machine 0x50004 =
        2 := by
  have hclear : ClearPage (clearNode 32768) 0x50004 :=
    ⟨by decide, by decide, (clearNode_bit 32768 4).trans (by decide)⟩
  have hown : OwnPage lowArrays (clearNode 32768) 0x50004 := ⟨by decide, by decide⟩
  refine ⟨by decide, clearNode_tail 32768, hclear, rfl, ?_⟩
  have hall := freeAllBootmemCore_released lowArrays untouched (b := clearNode 32768) (by decide)
    (clearNode_tail 32768)
  rw [hall.times_eq, if_pos hclear, if_pos hown]
  rfl

end BiscuitOS.BootmemHandOver
