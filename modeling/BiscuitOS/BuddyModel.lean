import BiscuitOS.PageModel

/-!
# The buddy free lists

One zone of `mm/page_alloc.c`: freeing with the merge loop, allocation with
the split loop, the fallback to other migrate types and the reserve retry.
Pages are frame numbers. The counters are unbounded, since they never exceed
the number of pages. `all_unreclaimable` and `pages_scanned`, which nothing
here reads, are left out.
-/

namespace BiscuitOS.BuddyModel

open PageModel

/-- `MAX_ORDER`. -/
def maxOrder : ℕ := 11

/-- `pageblock_order`. -/
def pageblockOrder : ℕ := 10

/-- `pageblock_nr_pages`. -/
def pageblockNrPages : ℕ := 2 ^ pageblockOrder

/-- `MIGRATE_UNMOVABLE`. -/
def migrateUnmovable : ℕ := 0

/-- `MIGRATE_RECLAIMABLE`. -/
def migrateReclaimable : ℕ := 1

/-- `MIGRATE_MOVABLE`. -/
def migrateMovable : ℕ := 2

/-- `MIGRATE_RESERVE`, also `MIGRATE_PCPTYPES`. -/
def migrateReserve : ℕ := 3

/-- `MIGRATE_ISOLATE`. -/
def migrateIsolate : ℕ := 4

/-- `MIGRATE_TYPES`. -/
def migrateTypes : ℕ := 5

/-- The rows of `fallbacks`; the entries without an initializer are zero. -/
def fallbacks : ℕ → List ℕ
  | 0 => [migrateReclaimable, migrateMovable, migrateReserve, 0]
  | 1 => [migrateUnmovable, migrateMovable, migrateReserve, 0]
  | 2 => [migrateReclaimable, migrateUnmovable, migrateReserve, 0]
  | 3 => [migrateReserve, migrateReserve, migrateReserve, 0]
  | _ => [0, 0, 0, 0]

/-- `struct zone`, with the descriptors and the globals its functions read. -/
structure Zone where
  /-- `zone_start_pfn`. -/
  startPfn : ℕ
  /-- `spanned_pages`. -/
  spannedPages : ℕ
  /-- `mem_map`. -/
  pages : Pages
  /-- `free_area[order].free_list[migratetype]`, from the head on. -/
  freeList : ℕ → ℕ → List ℕ
  /-- `free_area[order].nr_free`. -/
  nrFree : ℕ → ℤ
  /-- The migrate type bits of each pageblock, counted from the start of the zone. -/
  blockType : ℕ → ℕ
  /-- `vm_stat[NR_FREE_PAGES]`. -/
  nrFreePages : ℤ
  /-- `pfn_valid`. -/
  pfnValid : ℕ → Bool
  /-- `page_group_by_mobility_disabled`. -/
  mobilityDisabled : Bool

/-- `list_del(&page->lru)`: the page leaves the list it is on. -/
def listDel (z : Zone) (page : ℕ) : Zone :=
  { z with freeList := fun o t => (z.freeList o t).erase page }

/-- Replace one free list. -/
def setList (z : Zone) (o t : ℕ) (l : List ℕ) : Zone :=
  { z with freeList := Function.update z.freeList o (Function.update (z.freeList o) t l) }

/-- `list_add` to a free list. -/
def listAdd (z : Zone) (page o t : ℕ) : Zone := setList z o t (page :: z.freeList o t)

/-- `list_add_tail` to a free list. -/
def listAddTail (z : Zone) (page o t : ℕ) : Zone := setList z o t (z.freeList o t ++ [page])

/-- Add to `free_area[o].nr_free`. -/
def addNrFree (z : Zone) (o : ℕ) (v : ℤ) : Zone :=
  { z with nrFree := Function.update z.nrFree o (z.nrFree o + v) }

/-- `set_page_order`. -/
def setPageOrder (z : Zone) (page o : ℕ) : Zone :=
  { z with pages := setPage z.pages page { z.pages page with word := o, mapcount := -2 } }

/-- `rmv_page_order`. -/
def rmvPageOrder (z : Zone) (page : ℕ) : Zone :=
  { z with pages := setPage z.pages page { z.pages page with word := 0, mapcount := -1 } }

/-- `get_pageblock_migratetype`. -/
def getPageblockMigratetype (z : Zone) (page : ℕ) : ℕ :=
  z.blockType ((page - z.startPfn) / pageblockNrPages)

/-- `set_pageblock_migratetype`: three bits are stored. -/
def setPageblockMigratetype (z : Zone) (page t : ℕ) : Zone :=
  let t := if z.mobilityDisabled then migrateUnmovable else t
  { z with
    blockType := Function.update z.blockType ((page - z.startPfn) / pageblockNrPages) (t % 8) }

/-- `__find_buddy_index`. -/
def findBuddyIndex (pageIdx order : ℕ) : ℕ := pageIdx ^^^ 2 ^ order

/-- `page_is_buddy`. -/
def pageIsBuddy (z : Zone) (page buddy order : ℕ) : Bool :=
  z.pfnValid buddy && pageZoneId (z.pages page) = pageZoneId (z.pages buddy) &&
    pageBuddy (z.pages buddy) && (z.pages buddy).word = order

/-- Where the merge loop of `__free_one_page` stops. -/
structure Merged where
  /-- The zone without the merged buddies. -/
  zone : Zone
  /-- First page of the combined block. -/
  page : ℕ
  /-- Its index in its block of `MAX_ORDER`. -/
  pageIdx : ℕ
  /-- Its order. -/
  order : ℕ

/-- The merge loop of `__free_one_page`, with the rounds left. -/
def mergeLoop (z : Zone) (page pageIdx order : ℕ) : ℕ → Merged
  | 0 => ⟨z, page, pageIdx, order⟩
  | n + 1 =>
    let buddyIdx := findBuddyIndex pageIdx order
    let buddy := page + buddyIdx - pageIdx
    if pageIsBuddy z page buddy order then
      let z := rmvPageOrder (addNrFree (listDel z buddy) order (-1)) buddy
      let combinedIdx := buddyIdx &&& pageIdx
      mergeLoop z (page + combinedIdx - pageIdx) combinedIdx (order + 1) n
    else ⟨z, page, pageIdx, order⟩

/-- Whether `__free_one_page` queues the block at the tail: its buddy of the next order is free.
The higher buddy is computed from `page`, as in the source. -/
def queuesAtTail (m : Merged) : Bool :=
  let buddyIdx := findBuddyIndex m.pageIdx m.order
  let buddy := m.page + buddyIdx - m.pageIdx
  let combinedIdx := buddyIdx &&& m.pageIdx
  let higherPage := m.page + combinedIdx - m.pageIdx
  let higherIdx := findBuddyIndex combinedIdx (m.order + 1)
  let higherBuddy := m.page + higherIdx - combinedIdx
  m.order < maxOrder - 2 && m.zone.pfnValid buddy &&
    pageIsBuddy m.zone higherPage higherBuddy (m.order + 1)

/-- `__free_one_page`. -/
def freeOnePage (z : Zone) (page order migratetype : ℕ) : Zone :=
  let m := mergeLoop z page (page % 2 ^ maxOrder) order (maxOrder - 1 - order)
  let m := { m with zone := setPageOrder m.zone m.page m.order }
  let z :=
    if queuesAtTail m then listAddTail m.zone m.page m.order migratetype
    else listAdd m.zone m.page m.order migratetype
  addNrFree z m.order 1

/-- `expand`, from order `low + n` down to `low`. -/
def expand (z : Zone) (page low migratetype : ℕ) : ℕ → Zone
  | 0 => z
  | n + 1 =>
    let high := low + n
    let half := page + 2 ^ high
    expand (setPageOrder (addNrFree (listAdd z half high migratetype) high 1) half high)
      page low migratetype n

/-- The loop of `__rmqueue_smallest` from order `current`, with the rounds left. -/
def smallestFrom (z : Zone) (order migratetype current : ℕ) : ℕ → Option (ℕ × Zone)
  | 0 => none
  | n + 1 =>
    match z.freeList current migratetype with
    | [] => smallestFrom z order migratetype (current + 1) n
    | page :: _ =>
      let z := addNrFree (rmvPageOrder (listDel z page) page) current (-1)
      some (page, expand z page order migratetype (current - order))

/-- `__rmqueue_smallest`. -/
def rmqueueSmallest (z : Zone) (order migratetype : ℕ) : Option (ℕ × Zone) :=
  smallestFrom z order migratetype order (maxOrder - order)

/-- The loop of `move_freepages` from `page`, with the rounds left: the zone and the pages moved. -/
def moveFrom (z : Zone) (page last migratetype moved : ℕ) : ℕ → Zone × ℕ
  | 0 => (z, moved)
  | n + 1 =>
    if page ≤ last then
      if z.pfnValid page ∧ pageBuddy (z.pages page) then
        let order := (z.pages page).word
        moveFrom (listAdd (listDel z page) page order migratetype) (page + 2 ^ order) last
          migratetype (moved + 2 ^ order) n
      else moveFrom z (page + 1) last migratetype moved n
    else (z, moved)

/-- `move_freepages`; the loop advances by at least one page. -/
def moveFreepages (z : Zone) (first last migratetype : ℕ) : Zone × ℕ :=
  moveFrom z first last migratetype 0 (last + 1 - first)

/-- `move_freepages_block`. -/
def moveFreepagesBlock (z : Zone) (page migratetype : ℕ) : Zone × ℕ :=
  let startPfn := page - page % pageblockNrPages
  let endPfn := startPfn + pageblockNrPages - 1
  let first := if startPfn < z.startPfn then page else startPfn
  if z.startPfn + z.spannedPages ≤ endPfn then (z, 0)
  else moveFreepages z first endPfn migratetype

/-- `change_pageblock_range`, with the blocks left. -/
def changePageblockRange (z : Zone) (page migratetype : ℕ) : ℕ → Zone
  | 0 => z
  | n + 1 =>
    changePageblockRange (setPageblockMigratetype z page migratetype) (page + pageblockNrPages)
      migratetype n

/-- Whether `__rmqueue_fallback` takes over the pageblock of the block it breaks. -/
def takesBlock (z : Zone) (current start : ℕ) : Bool :=
  pageblockOrder / 2 ≤ current || start = migrateReclaimable || z.mobilityDisabled

/-- Taking over the pageblock: its free pages change lists, and the block its type when at
least half of it is free. -/
def takeBlock (z : Zone) (page start : ℕ) : Zone :=
  let moved := moveFreepagesBlock z page start
  if 2 ^ (pageblockOrder - 1) ≤ moved.2 ∨ z.mobilityDisabled then
    setPageblockMigratetype moved.1 page start
  else moved.1

/-- What `__rmqueue_fallback` does with the block it finds at the head of a list. -/
def fallbackTake (z : Zone) (page order start current migratetype : ℕ) : Zone :=
  let z := addNrFree z current (-1)
  let taken := takesBlock z current start
  let z := if taken then takeBlock z page start else z
  let migratetype := if taken then start else migratetype
  let z := rmvPageOrder (listDel z page) page
  let z :=
    if pageblockOrder ≤ current then
      changePageblockRange z page start (2 ^ (current - pageblockOrder))
    else z
  expand z page order migratetype (current - order)

/-- The loop of `__rmqueue_fallback` over the types of one row. -/
def fallbackTypes (z : Zone) (order start current : ℕ) : List ℕ → Option (ℕ × Zone)
  | [] => none
  | migratetype :: types =>
    if migratetype = migrateReserve then fallbackTypes z order start current types
    else
      match z.freeList current migratetype with
      | [] => fallbackTypes z order start current types
      | page :: _ => some (page, fallbackTake z page order start current migratetype)

/-- The loop of `__rmqueue_fallback` over the orders below `order + n`, downwards. -/
def fallbackFrom (z : Zone) (order start : ℕ) : ℕ → Option (ℕ × Zone)
  | 0 => none
  | n + 1 =>
    match fallbackTypes z order start (order + n) (fallbacks start) with
    | some r => some r
    | none => fallbackFrom z order start n

/-- `__rmqueue_fallback`. -/
def rmqueueFallback (z : Zone) (order start : ℕ) : Option (ℕ × Zone) :=
  fallbackFrom z order start (maxOrder - order)

/-- `__rmqueue`; the reserve is tried once, after the fallback failed. -/
def rmqueue (z : Zone) (order migratetype : ℕ) : Option (ℕ × Zone) :=
  match rmqueueSmallest z order migratetype with
  | some r => some r
  | none =>
    if migratetype = migrateReserve then none
    else
      match rmqueueFallback z order migratetype with
      | some r => some r
      | none => rmqueueSmallest z order migrateReserve

end BiscuitOS.BuddyModel
