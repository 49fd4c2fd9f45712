import Mathlib

/-!
# Page descriptors

`struct page` with the fields the page and slab allocators read, the flag
tests of `page-flags.h`, and the checks and preparations of `page_alloc.c`
that touch single descriptors. `VM_BUG_ON` only reports. The contents of
pages are not modelled.
-/

namespace BiscuitOS.PageModel

/-- `PG_locked`. -/
def pgLocked : ℕ := 0

/-- `PG_active`, also `PG_slub_frozen`. -/
def pgActive : ℕ := 6

/-- `PG_slab`. -/
def pgSlab : ℕ := 7

/-- `PG_reserved`. -/
def pgReserved : ℕ := 10

/-- `PG_compound`. -/
def pgCompound : ℕ := 14

/-- `PG_reclaim`. -/
def pgReclaim : ℕ := 17

/-- `PG_mlocked`. -/
def pgMlocked : ℕ := 20

/-- `PG_hwpoison`. -/
def pgHwpoison : ℕ := 21

/-- `NR_PAGEFLAGS`. -/
def nrPageflags : ℕ := 22

/-- A flags word with only one flag set. -/
def flag (n : ℕ) : BitVec 64 := 1#64 <<< n

/-- `PAGE_FLAGS_CHECK_AT_FREE`: lru, locked, private, private_2, writeback, reserved, slab,
swapcache, active, unevictable, mlocked and hwpoison. -/
def pageFlagsCheckAtFree : BitVec 64 :=
  flag 5 ||| flag pgLocked ||| flag 11 ||| flag 12 ||| flag 13 ||| flag pgReserved |||
    flag pgSlab ||| flag 15 ||| flag pgActive ||| flag 19 ||| flag pgMlocked ||| flag pgHwpoison

/-- `PAGE_FLAGS_CHECK_AT_PREP`. -/
def pageFlagsCheckAtPrep : BitVec 64 := flag nrPageflags - 1#64

/-- `struct page`. Membership in lists through `lru` is kept by the lists themselves. -/
structure Page where
  /-- Atomic flags, with the zone number in the upper bits. -/
  flags : BitVec 64
  /-- `_count`. -/
  count : ℤ
  /-- `_mapcount`; -2 marks the head of a free block. -/
  mapcount : ℤ
  /-- `lru.prev`, which holds the order of a compound page in its second descriptor. -/
  lruPrev : ℕ
  /-- The union of `private`, `slab` and `first_page`. -/
  word : ℕ
  /-- `mapping`; zero for NULL. -/
  mapping : ℕ

/-- `mem_map`, by page frame number. -/
abbrev Pages := ℕ → Page

/-- `test_bit` on the flags of a page. -/
def testFlag (p : Page) (n : ℕ) : Bool := p.flags.getLsbD n

/-- `PageTail`: both `PG_compound` and `PG_reclaim`. -/
def pageTail (p : Page) : Bool :=
  p.flags &&& (flag pgCompound ||| flag pgReclaim) = flag pgCompound ||| flag pgReclaim

/-- `PageHead`. -/
def pageHead (p : Page) : Bool := testFlag p pgCompound

/-- `PageCompound` outside `page_alloc.c`, where it is constantly zero. -/
def pageCompound (p : Page) : Bool := testFlag p pgCompound

/-- `PageSlab`. -/
def pageSlab (p : Page) : Bool := testFlag p pgSlab

/-- `PageBuddy`. -/
def pageBuddy (p : Page) : Bool := p.mapcount = -2

/-- `page_zone_id`: two bits at position 30. -/
def pageZoneId (p : Page) : ℕ := (p.flags >>> 30 &&& 3#64).toNat

/-- `compound_head`. -/
def compoundHead (pages : Pages) (page : ℕ) : ℕ :=
  if pageTail (pages page) then (pages page).word else page

/-- `compound_order`. -/
def compoundOrder (pages : Pages) (page : ℕ) : ℕ :=
  if pageHead (pages page) then (pages (page + 1)).lruPrev else 0

/-- `virt_to_head_page` of a linearly mapped address, given as its physical address. -/
def virtToHeadPage (pages : Pages) (x : ℕ) : ℕ := compoundHead pages (x / 4096)

/-- Assign one descriptor. -/
def setPage (pages : Pages) (page : ℕ) (p : Page) : Pages := Function.update pages page p

@[simp] theorem setPage_self (pages : Pages) (page : ℕ) (p : Page) :
    setPage pages page p page = p := by
  simp only [setPage, Function.update_self]

/-- The other descriptors. -/
theorem setPage_other (pages : Pages) {page q : ℕ} (h : q ≠ page) (p : Page) :
    setPage pages page p q = pages q := by
  simp only [setPage, Function.update_of_ne h]

/-- `check_new_page`: a page fresh from the free lists carries no use. -/
def checkNewPage (p : Page) : Bool :=
  p.mapcount + 1 ≠ 0 ∨ p.mapping ≠ 0 ∨ p.count ≠ 0 ∨ p.flags &&& pageFlagsCheckAtPrep ≠ 0

/-- The loop of `prep_compound_page` from tail page `i`, with the pages left. -/
def setFirstPage (pages : Pages) (page i : ℕ) : ℕ → Pages
  | 0 => pages
  | n + 1 =>
    setFirstPage (setPage pages (page + i) { pages (page + i) with word := page }) page (i + 1) n

/-- `prep_compound_page`. The order and the head and tail flags are left unset by the source.
The destructor stored in the second descriptor is never read and not kept. -/
def prepCompoundPage (pages : Pages) (page order : ℕ) : Pages :=
  setFirstPage pages page 1 (2 ^ order - 1)

/-- The allocation flags that the modelled functions look at. -/
structure GfpFlags where
  /-- `__GFP_COMP`. -/
  comp : Bool
  /-- `__GFP_COLD`. -/
  cold : Bool
  deriving DecidableEq

/-- `prep_new_page`: whether the block is rejected, and the descriptors after it. -/
def prepNewPage (pages : Pages) (page order : ℕ) (gfp : GfpFlags) : Bool × Pages :=
  if (List.range (2 ^ order)).any fun i => checkNewPage (pages (page + i)) then (true, pages)
  else
    let prepared := setPage pages page { pages page with word := 0, count := 1 }
    (false, if order ≠ 0 ∧ gfp.comp then prepCompoundPage prepared page order else prepared)

variable {pages : Pages} {page order : ℕ} {gfp : GfpFlags} {p : Page}

/-- The descriptors after the tail loop: the linked ones change in the shared word only. -/
theorem setFirstPage_eq (n i q : ℕ) :
    setFirstPage pages page i n q =
      if page + i ≤ q ∧ q < page + i + n then { pages q with word := page } else pages q := by
  induction n generalizing pages i with
  | zero => rw [setFirstPage, if_neg (by omega)]
  | succ n ih =>
    rw [setFirstPage, ih]
    by_cases hq : q = page + i
    · subst hq
      rw [if_neg (by omega), if_pos (by omega), setPage_self]
    · rw [setPage_other _ hq]
      by_cases hr : page + (i + 1) ≤ q ∧ q < page + (i + 1) + n
      · rw [if_pos hr, if_pos (by omega)]
      · rw [if_neg hr, if_neg (by omega)]

/-- A block is accepted exactly when every descriptor passes the check. -/
theorem prepNewPage_accepts :
    (prepNewPage pages page order gfp).1 = false ↔
      ∀ i < 2 ^ order, checkNewPage (pages (page + i)) = false := by
  rw [prepNewPage]
  split
  · next h =>
    simp only [List.any_eq_true, List.mem_range] at h
    obtain ⟨i, hi, hc⟩ := h
    simp only [Bool.true_eq_false, false_iff, not_forall]
    exact ⟨i, hi, by rw [hc]; decide⟩
  · next h =>
    simp only [Bool.not_eq_true, List.any_eq_false, List.mem_range] at h
    simp only [true_iff]
    exact h

/-- A rejected block leaves every descriptor as it was. -/
theorem prepNewPage_rejected (h : (prepNewPage pages page order gfp).1 = true) :
    (prepNewPage pages page order gfp).2 = pages := by
  rw [prepNewPage] at h ⊢
  split at h
  · next hc => rw [if_pos hc]
  · cases h

/-- What preparing an accepted block changes: the count of the head and shared words. -/
theorem prepNewPage_eq (h : (prepNewPage pages page order gfp).1 = false) (q : ℕ) :
    ∃ w, (prepNewPage pages page order gfp).2 q =
      { pages q with word := w, count := if q = page then 1 else (pages q).count } ∧
      (q < page ∨ page + 2 ^ order ≤ q → w = (pages q).word) := by
  have hpow : 0 < 2 ^ order := Nat.two_pow_pos order
  rw [prepNewPage] at h ⊢
  split at h
  · cases h
  · next hc =>
    rw [if_neg hc]
    have hbase : setPage pages page { pages page with word := 0, count := 1 } q =
        { pages q with
          word := if q = page then 0 else (pages q).word
          count := if q = page then 1 else (pages q).count } := by
      by_cases hq : q = page
      · subst hq
        rw [setPage_self, if_pos rfl, if_pos rfl]
      · rw [setPage_other _ hq, if_neg hq, if_neg hq]
    dsimp only
    split
    · rw [prepCompoundPage, setFirstPage_eq, hbase]
      split
      · exact ⟨page, rfl, fun hor => by omega⟩
      · exact ⟨_, rfl, fun hor => if_neg (by omega)⟩
    · rw [hbase]
      exact ⟨_, rfl, fun hor => if_neg (by omega)⟩

/-- A descriptor that passes the check has none of the checked flags. -/
theorem checkNewPage_flag (h : checkNewPage p = false) {n : ℕ} (hn : n < nrPageflags) :
    testFlag p n = false := by
  have hz : p.flags &&& pageFlagsCheckAtPrep = 0 := by
    simp only [checkNewPage, decide_eq_false_iff_not, not_or, not_not] at h
    exact h.2.2.2
  have hm : pageFlagsCheckAtPrep.getLsbD n = true := by
    rw [nrPageflags] at hn
    interval_cases n <;> decide
  have hb := congrArg (fun v => BitVec.getLsbD v n) hz
  simp only [BitVec.getLsbD_and, hm, Bool.and_true] at hb
  rw [testFlag, hb]
  exact BitVec.getLsbD_zero

end BiscuitOS.PageModel
