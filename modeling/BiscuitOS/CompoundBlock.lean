import BiscuitOS.PageModel

/-!
# Higher-order blocks in the slab allocator

`prep_compound_page` leaves the head flag, the order and the tail flags
unset. The functions that read them back are followed on every block that
`prep_new_page` accepts: each page is its own head of order zero, so freeing
a slab or a large allocation gives back one page.
-/

namespace BiscuitOS.CompoundBlock

open PageModel

/-- `PAGE_SIZE`. -/
def pageSize : ℕ := 4096

/-- The shifts of `get_order` until nothing is left, with the rounds allowed. -/
def orderOf : ℕ → ℕ → ℕ
  | 0, _ => 0
  | n + 1, size => if size / 2 = 0 then 0 else orderOf n (size / 2) + 1

/-- `get_order` of a 64-bit size. -/
def getOrder (size : ℕ) : ℕ := if size = 0 then 0 else orderOf 64 ((size - 1) / 2048)

/-- The descriptors, the slab page counter, and what reached the allocators so far. -/
structure Machine where
  /-- `mem_map`. -/
  pages : Pages
  /-- `NR_SLAB_RECLAIMABLE` or `NR_SLAB_UNRECLAIMABLE`, whichever the cache uses. -/
  slabCounter : ℤ
  /-- Blocks handed to `free_hot_cold_page` or `__free_pages_ok`, with their orders. -/
  released : List (ℕ × ℕ)
  /-- Calls of `slab_free(s, page, x)`. -/
  slabFrees : List (ℕ × ℕ × ℕ)

/-- Number of pages handed back so far. -/
def Machine.releasedPages (m : Machine) : ℕ := (m.released.map fun b => 2 ^ b.2).sum

/-- Add to the use count of a page. -/
def addCount (m : Machine) (page : ℕ) (v : ℤ) : Machine :=
  let p := m.pages page
  { m with pages := setPage m.pages page { p with count := p.count + v } }

/-- Drop a reference, and go on only when the count fell to zero (`put_page_testzero`). -/
def putTestzero (m : Machine) (page : ℕ) (zero : Machine → Machine) : Machine :=
  let m := addCount m page (-1)
  if (m.pages page).count = 0 then zero m else m

/-- Hand a block back to the page allocator. -/
def release (page order : ℕ) (m : Machine) : Machine :=
  { m with released := (page, order) :: m.released }

/-- `__free_pages`. -/
def freePages (m : Machine) (page order : ℕ) : Machine :=
  putTestzero m page (release page order)

/-- `put_compound_page`; `__put_compound_page` is compiled out and frees nothing. -/
def putCompoundPage (m : Machine) (page : ℕ) : Machine :=
  if pageTail (m.pages page) then
    let head := (m.pages page).word
    if (m.pages head).count ≠ 0 then
      let m := addCount m head 1
      if pageHead (m.pages head) then
        let m := addCount (putTestzero m head id) page (-1)
        putTestzero m head fun m => if pageHead (m.pages head) then m else release head 0 m
      else
        putTestzero (putTestzero m head (release head 0)) page (release page 0)
    else putTestzero m page (release page 0)
  else
    putTestzero m page fun m => if pageHead (m.pages page) then m else release page 0 m

/-- `put_page`. -/
def putPage (m : Machine) (page : ℕ) : Machine :=
  if pageCompound (m.pages page) then putCompoundPage m page
  else putTestzero m page (release page 0)

/-- Enter `slab_free(s, page, x)`. -/
def slabFree (m : Machine) (s page x : ℕ) : Machine :=
  { m with slabFrees := (s, page, x) :: m.slabFrees }

/-- `kfree`; its `BUG_ON` only reports. -/
def kfree (m : Machine) (x : ℕ) : Machine :=
  if x ≤ 16 then m
  else
    let page := virtToHeadPage m.pages x
    if pageSlab (m.pages page) then slabFree m (m.pages page).word page x
    else putPage m page

/-- `kmem_cache_free`. -/
def kmemCacheFree (m : Machine) (s x : ℕ) : Machine :=
  slabFree m s (virtToHeadPage m.pages x) x

/-- What `allocate_slab` and `new_slab` do to a block of the given order for cache `s`. -/
def newSlab (m : Machine) (s page order : ℕ) : Machine :=
  { m with
    slabCounter := m.slabCounter + 2 ^ order
    pages := setPage m.pages page
      { m.pages page with word := s, flags := (m.pages page).flags ||| flag pgSlab } }

/-- `__free_slab`. -/
def freeSlab (m : Machine) (page : ℕ) : Machine :=
  let order := compoundOrder m.pages page
  freePages
    { m with
      slabCounter := m.slabCounter - 2 ^ order
      pages := setPage m.pages page
        { m.pages page with
          flags := (m.pages page).flags &&& ~~~flag pgSlab
          mapcount := -1 } }
    page order

/-- An address in the block. -/
def InBlock (page order x : ℕ) : Prop := page * pageSize ≤ x ∧ x < (page + 2 ^ order) * pageSize

/-- Every address of the block leads to its first page. -/
def HeadLaw (m : Machine) (page order : ℕ) : Prop :=
  ∀ x, InBlock page order x → virtToHeadPage m.pages x = page

/-- The first page knows the order of the block. -/
def OrderLaw (m : Machine) (page order : ℕ) : Prop := compoundOrder m.pages page = order

/-- Freeing any object of the slab by `kfree` enters the slab's own descriptor. -/
def KfreeLaw (m : Machine) (s page order : ℕ) : Prop :=
  ∀ x, InBlock page order x → (kfree m x).slabFrees = (s, page, x) :: m.slabFrees

/-- The same for `kmem_cache_free`. -/
def CacheFreeLaw (m : Machine) (s page order : ℕ) : Prop :=
  ∀ x, InBlock page order x → (kmemCacheFree m s x).slabFrees = (s, page, x) :: m.slabFrees

/-- Freeing the slab gives back all its pages. -/
def FreeSlabLaw (m : Machine) (page order : ℕ) : Prop :=
  (freeSlab m page).releasedPages = m.releasedPages + 2 ^ order

/-- Freeing the slab undoes what allocating it added to the counter. -/
def CounterLaw (m : Machine) (page order : ℕ) : Prop :=
  (freeSlab m page).slabCounter + 2 ^ order = m.slabCounter

/-- Freeing a large allocation of the given size gives back all its pages. -/
def LargeLaw (m : Machine) (page size : ℕ) : Prop :=
  (kfree m (page * pageSize)).releasedPages = m.releasedPages + 2 ^ getOrder size

/-- Later descriptors of the block: the flags that tell heads from tails are untouched, and
the tail pages carry neither the slab flag nor a reference of their own. -/
def Later (before after : Pages) (page order : ℕ) : Prop :=
  ∀ i < 2 ^ order,
    testFlag (after (page + i)) pgCompound = testFlag (before (page + i)) pgCompound ∧
    (0 < i → testFlag (after (page + i)) pgSlab = testFlag (before (page + i)) pgSlab ∧
      (after (page + i)).count = (before (page + i)).count)

variable {pages : Pages} {page order s : ℕ} {gfp : GfpFlags} {m : Machine} {p : Page}

/-- A tail has the compound flag. -/
theorem pageTail_compound (h : testFlag p pgCompound = false) : pageTail p = false := by
  rw [pageTail, decide_eq_false_iff_not]
  intro he
  have hb := congrArg (fun v => BitVec.getLsbD v pgCompound) he
  have hm : (flag pgCompound ||| flag pgReclaim).getLsbD pgCompound = true := by decide
  rw [testFlag] at h
  simp only [BitVec.getLsbD_and, h, Bool.false_and, hm] at hb
  cases hb

/-- The pages of an accepted block carry no flag below the zone bits. -/
theorem prepared_flag (h : (prepNewPage pages page order gfp).1 = false) {i n : ℕ}
    (hi : i < 2 ^ order) (hn : n < nrPageflags) :
    testFlag ((prepNewPage pages page order gfp).2 (page + i)) n = false := by
  obtain ⟨w, he, -⟩ := prepNewPage_eq h (page + i)
  rw [he]
  exact checkNewPage_flag (prepNewPage_accepts.mp h i hi) hn

/-- After preparation no page of the block is ever told from a single page. -/
theorem later_compound (h : (prepNewPage pages page order gfp).1 = false)
    (hl : Later (prepNewPage pages page order gfp).2 m.pages page order) {i : ℕ}
    (hi : i < 2 ^ order) : testFlag (m.pages (page + i)) pgCompound = false := by
  rw [(hl i hi).1, prepared_flag h hi (by decide)]

/-- Building a slab in the block keeps its later descriptors as described. -/
theorem newSlab_later (hl : Later pages m.pages page order) (k : ℕ) :
    Later pages (newSlab m s page k).pages page order := by
  intro i hi
  obtain ⟨hc, ht⟩ := hl i hi
  by_cases hz : i = 0
  · subst hz
    refine ⟨?_, fun hpos => absurd hpos (lt_irrefl 0)⟩
    have hm : (flag pgSlab).getLsbD pgCompound = false := by decide
    simp only [newSlab, Nat.add_zero, setPage_self, testFlag, BitVec.getLsbD_or, hm, Bool.or_false]
    exact hc
  · have hne : page + i ≠ page := by omega
    simp only [newSlab, setPage_other _ hne]
    exact ⟨hc, ht⟩

/-- The head of an address is its own page. -/
theorem virtToHeadPage_self {x : ℕ} (h : testFlag (m.pages (x / 4096)) pgCompound = false) :
    virtToHeadPage m.pages x = x / 4096 := by
  rw [virtToHeadPage, compoundHead, pageTail_compound h]
  rfl

/-- The recorded order is zero. -/
theorem compoundOrder_zero (h : testFlag (m.pages page) pgCompound = false) :
    compoundOrder m.pages page = 0 := by
  rw [compoundOrder, pageHead, h]
  rfl

/-- The first address of the second page of a block of more than one page. -/
theorem second_inBlock (page : ℕ) (hk : 0 < order) : InBlock page order ((page + 1) * pageSize) ∧
    (page + 1) * pageSize / 4096 = page + 1 ∧ 16 < (page + 1) * pageSize := by
  have hpow : 2 ≤ 2 ^ order := Nat.le_self_pow (by omega) 2
  have hlt : (page + 1) * 4096 < (page + 2 ^ order) * 4096 :=
    Nat.mul_lt_mul_of_pos_right (by omega) (by decide)
  refine ⟨⟨Nat.mul_le_mul_right _ (Nat.le_succ page), hlt⟩, ?_, ?_⟩
  · exact Nat.mul_div_cancel _ (by decide)
  · rw [pageSize]
    omega

/-- What dropping a reference adds to the released pages. -/
theorem putTestzero_released (m : Machine) (page q k : ℕ) :
    (putTestzero m page (release q k)).releasedPages =
        m.releasedPages + (if (m.pages page).count = 1 then 2 ^ k else 0) ∧
      (putTestzero m page (release q k)).slabFrees = m.slabFrees ∧
      (putTestzero m page (release q k)).slabCounter = m.slabCounter := by
  have hc : ((addCount m page (-1)).pages page).count = (m.pages page).count + -1 := by
    simp only [addCount, setPage_self]
  simp only [putTestzero, hc]
  by_cases h1 : (m.pages page).count = 1
  · rw [if_pos (by omega), if_pos h1]
    refine ⟨?_, rfl, rfl⟩
    simp only [release, Machine.releasedPages, addCount, List.map_cons, List.sum_cons]
    omega
  · rw [if_neg (by omega), if_neg h1]
    exact ⟨rfl, rfl, rfl⟩

/-- Freeing a slab gives back its first page only and takes one page from the counter. -/
theorem freeSlab_one (h : testFlag (m.pages page) pgCompound = false) :
    (freeSlab m page).releasedPages =
        m.releasedPages + (if (m.pages page).count = 1 then 1 else 0) ∧
      (freeSlab m page).slabCounter = m.slabCounter - 1 := by
  rw [freeSlab]
  dsimp only
  rw [compoundOrder_zero h, freePages]
  refine ⟨?_, ?_⟩
  · rw [(putTestzero_released _ _ _ _).1]
    simp only [setPage_self, pow_zero]
    rfl
  · rw [(putTestzero_released _ _ _ _).2.2]
    simp only [pow_zero]

/-- Freeing a large allocation gives back its first page only. -/
theorem kfree_large (h : testFlag (m.pages page) pgCompound = false)
    (hslab : testFlag (m.pages page) pgSlab = false) :
    (kfree m (page * pageSize)).releasedPages ≤ m.releasedPages + 1 := by
  rw [kfree]
  split
  · exact Nat.le_succ _
  · have hdiv : page * pageSize / 4096 = page := Nat.mul_div_cancel _ (by decide)
    have hhead : virtToHeadPage m.pages (page * pageSize) = page := by
      rw [virtToHeadPage_self (by rwa [hdiv]), hdiv]
    dsimp only
    rw [hhead, pageSlab, hslab, if_neg (by decide), putPage, pageCompound, h, if_neg (by decide),
      (putTestzero_released _ _ _ _).1]
    split
    · rfl
    · exact Nat.le_succ _

/-- Freeing an object of the second page by `kfree` enters no slab. -/
theorem kfree_second (hk : 0 < order) (h : testFlag (m.pages (page + 1)) pgCompound = false)
    (hslab : testFlag (m.pages (page + 1)) pgSlab = false) :
    (kfree m ((page + 1) * pageSize)).slabFrees = m.slabFrees := by
  obtain ⟨-, hdiv, hlarge⟩ := second_inBlock page hk
  have hhead : virtToHeadPage m.pages ((page + 1) * pageSize) = page + 1 := by
    rw [virtToHeadPage_self (by rwa [hdiv]), hdiv]
  rw [kfree, if_neg (by omega)]
  dsimp only
  rw [hhead, pageSlab, hslab, if_neg (by decide), putPage, pageCompound, h, if_neg (by decide),
    (putTestzero_released _ _ _ _).2.1]

/-- For every block of more than one page that was accepted, with `__GFP_COMP` or not, and
for every later state of its descriptors, each law of giving back the block fails. -/
theorem block_never_given_back (pages : Pages) (page order : ℕ) (gfp : GfpFlags) (hk : 1 ≤ order)
    (haccept : (prepNewPage pages page order gfp).1 = false) (m : Machine)
    (hl : Later (prepNewPage pages page order gfp).2 m.pages page order) :
    ¬ HeadLaw m page order ∧ ¬ OrderLaw m page order ∧
      (∀ s, ¬ KfreeLaw m s page order ∧ ¬ CacheFreeLaw m s page order) ∧
      ¬ FreeSlabLaw m page order ∧ ¬ CounterLaw m page order ∧
      (testFlag (m.pages page) pgSlab = false → ∀ size, getOrder size = order →
        ¬ LargeLaw m page size) := by
  have hpow : 2 ≤ 2 ^ order := Nat.le_self_pow (by omega) 2
  obtain ⟨hin, hdiv, hlarge⟩ := second_inBlock page hk
  have hhead : testFlag (m.pages page) pgCompound = false :=
    later_compound haccept hl (i := 0) (by omega)
  have htail : testFlag (m.pages (page + 1)) pgCompound = false :=
    later_compound haccept hl (i := 1) (by omega)
  have hslab : testFlag (m.pages (page + 1)) pgSlab = false := by
    rw [((hl 1 (by omega)).2 Nat.one_pos).1, prepared_flag haccept (by omega) (by decide)]
  have hself : virtToHeadPage m.pages ((page + 1) * pageSize) = page + 1 := by
    rw [virtToHeadPage_self (by rwa [hdiv]), hdiv]
  refine ⟨fun h => ?_, fun h => ?_, fun s => ⟨fun h => ?_, fun h => ?_⟩, fun h => ?_, fun h => ?_,
    fun hns size hsize h => ?_⟩
  · have := h _ hin
    omega
  · rw [OrderLaw, compoundOrder_zero hhead] at h
    omega
  · have hf := h _ hin
    rw [kfree_second hk htail hslab] at hf
    have := congrArg List.length hf
    rw [List.length_cons] at this
    omega
  · have hf := h _ hin
    simp only [kmemCacheFree, slabFree, hself, List.cons.injEq, Prod.mk.injEq] at hf
    omega
  · rw [FreeSlabLaw, (freeSlab_one hhead).1] at h
    split at h <;> omega
  · rw [CounterLaw, (freeSlab_one hhead).2] at h
    have hz : (2 : ℤ) ≤ 2 ^ order := by exact_mod_cast hpow
    omega
  · have hle := kfree_large hhead hns
    rw [LargeLaw, hsize] at h
    omega

/-- Descriptors as the free lists leave them. -/
def freshPages : Pages := fun _ => ⟨0#64, 0, -1, 0, 0, 0⟩

/-- The state right after a block of two pages was prepared. -/
def twoPages : Machine :=
  ⟨(prepNewPage freshPages 8 1 ⟨true, false⟩).2, 0, [], []⟩

/-- The block of two pages. -/
theorem block_never_given_back_two :
    ¬ HeadLaw twoPages 8 1 ∧ ¬ OrderLaw twoPages 8 1 ∧
      (∀ s, ¬ KfreeLaw twoPages s 8 1 ∧ ¬ CacheFreeLaw twoPages s 8 1) ∧
      ¬ FreeSlabLaw twoPages 8 1 ∧ ¬ CounterLaw twoPages 8 1 ∧
      (testFlag (twoPages.pages 8) pgSlab = false → ∀ size, getOrder size = 1 →
        ¬ LargeLaw twoPages 8 size) :=
  block_never_given_back freshPages 8 1 ⟨true, false⟩ (le_refl 1) (by decide) twoPages
    fun _ _ => ⟨rfl, fun _ => ⟨rfl, rfl⟩⟩

/-- A block of two pages accepted with `__GFP_COMP`: the second page is its own head, the
order reads zero, and freeing the slab built from it gives back one page. -/
theorem twoPages_counterexample :
    (prepNewPage freshPages 8 1 ⟨true, false⟩).1 = false ∧
      virtToHeadPage twoPages.pages 36864 = 9 ∧ compoundOrder twoPages.pages 8 = 0 ∧
      (freeSlab (newSlab twoPages 3 8 1) 8).released = [(8, 0)] ∧
      (freeSlab (newSlab twoPages 3 8 1) 8).slabCounter = 1 := by
  decide

end BiscuitOS.CompoundBlock
