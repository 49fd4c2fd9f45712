import BiscuitOS.BuddyModel
import BiscuitOS.MachineWord

/-!
# Per-cpu page lists

The page lists of the only processor in front of the free lists of a zone:
freeing and allocating single pages through them, draining them in turn and
refilling them in bulk. A result `none` stands for a loop that never ends or
a list that does not exist. The counter of mlocked pages, which is only
decremented here, is left out.
-/

namespace BiscuitOS.PcpModel

open PageModel BuddyModel MachineWord

/-- `MIGRATE_PCPTYPES`. -/
def migratePcptypes : ℕ := 3

/-- `struct per_cpu_pages`. -/
structure PerCpuPages where
  /-- Number of pages on the lists. -/
  count : ℤ
  /-- High watermark. -/
  high : ℤ
  /-- Chunk size for refilling and draining. -/
  batch : ℤ
  /-- One list for each migrate type below `MIGRATE_PCPTYPES`, from the head on. -/
  lists : ℕ → List ℕ

/-- A zone with its pageset. -/
structure PcpZone where
  /-- The zone. -/
  zone : Zone
  /-- Its `pageset->pcp`. -/
  pcp : PerCpuPages

/-- Conversion of an `unsigned long` to `int`. -/
def toInt (x : ℕ) : ℤ := toSigned 32 x

/-- `setup_pageset`. -/
def setupPageset (batch : ℕ) : PerCpuPages where
  count := 0
  high := toInt (6 * batch)
  batch := toInt (max 1 batch)
  lists := fun _ => []

/-- `setup_pagelist_highmark`. -/
def setupPagelistHighmark (p : PerCpuPages) (high : ℕ) : PerCpuPages :=
  { p with
    high := toInt high
    batch := if 12 * 8 < high / 4 then 12 * 8 else toInt (max 1 (high / 4)) }

/-- `__mod_zone_page_state` on `NR_FREE_PAGES`. -/
def modFreePages (z : Zone) (v : ℤ) : Zone := { z with nrFreePages := z.nrFreePages + v }

/-- `set_page_private`. -/
def setPagePrivate (z : Zone) (page w : ℕ) : Zone :=
  { z with pages := setPage z.pages page { z.pages page with word := w } }

/-- `__TestClearPageMlocked`, without the result. -/
def clearPageMlocked (z : Zone) (page : ℕ) : Zone :=
  { z with
    pages := setPage z.pages page
      { z.pages page with flags := (z.pages page).flags &&& ~~~flag pgMlocked } }

/-- `PageAnon`. -/
def pageAnon (p : Page) : Bool := p.mapping % 2 = 1

/-- `free_pages_check`: whether the descriptor is bad, and the descriptor after it. -/
def freePagesCheck (p : Page) : Bool × Page :=
  if p.mapcount + 1 ≠ 0 ∨ p.mapping ≠ 0 ∨ p.count ≠ 0 ∨ p.flags &&& pageFlagsCheckAtFree ≠ 0 then
    (true, { p with mapcount := -1 })
  else (false, { p with flags := p.flags &&& ~~~pageFlagsCheckAtPrep })

/-- The loop of `free_pages_prepare` from `page`, with the pages left: whether one is bad. -/
def checkFrom (pages : Pages) (page : ℕ) : ℕ → Bool × Pages
  | 0 => (false, pages)
  | n + 1 =>
    let checked := freePagesCheck (pages page)
    let rest := checkFrom (setPage pages page checked.2) (page + 1) n
    (checked.1 || rest.1, rest.2)

/-- `free_pages_prepare`: whether the block may be freed, and the descriptors after it. -/
def freePagesPrepare (pages : Pages) (page order : ℕ) : Bool × Pages :=
  let pages :=
    if pageAnon (pages page) then setPage pages page { pages page with mapping := 0 } else pages
  let checked := checkFrom pages page (2 ^ order)
  (!checked.1, checked.2)

/-- `free_one_page`, which takes the lock and keeps the statistics. -/
def zoneFreeOnePage (z : Zone) (page order migratetype : ℕ) : Zone :=
  modFreePages (freeOnePage z page order migratetype) (2 ^ order)

/-- `list_del(&page->lru)` for a page on a list of the pageset. -/
def pcpDel (s : PcpZone) (page : ℕ) : PcpZone :=
  { s with pcp := { s.pcp with lists := fun t => (s.pcp.lists t).erase page } }

/-- Replace one list of the pageset. -/
def setPcpList (s : PcpZone) (t : ℕ) (l : List ℕ) : PcpZone :=
  { s with pcp := { s.pcp with lists := Function.update s.pcp.lists t l } }

/-- Add to `pcp->count`. -/
def addCount (s : PcpZone) (v : ℤ) : PcpZone :=
  { s with pcp := { s.pcp with count := s.pcp.count + v } }

/-- The search of `free_pcppages_bulk` for the next list that is not empty, with the lists left
to try: `batch_free` and the migrate type. After a full turn over empty lists it never ends. -/
def nextList (pcp : PerCpuPages) (batchFree : ℤ) (migratetype : ℕ) : ℕ → Option (ℤ × ℕ)
  | 0 => none
  | n + 1 =>
    let migratetype := if migratetype + 1 = migratePcptypes then 0 else migratetype + 1
    if pcp.lists migratetype = [] then nextList pcp (batchFree + 1) migratetype n
    else some (batchFree + 1, migratetype)

/-- The inner loop of `free_pcppages_bulk` on one list, with `to_free` left: the state, `to_free`
and `batch_free` after it. It is entered on a list that is not empty only. -/
def drainList (s : PcpZone) (migratetype : ℕ) (batchFree : ℤ) : ℕ → PcpZone × ℕ × ℤ
  | 0 => (s, 0, batchFree)
  | n + 1 =>
    match (s.pcp.lists migratetype).getLast? with
    | none => (s, n + 1, batchFree)
    | some page =>
      let s := pcpDel s page
      let s := { s with zone := freeOnePage s.zone page 0 (s.zone.pages page).word }
      if n = 0 ∨ batchFree - 1 = 0 ∨ s.pcp.lists migratetype = [] then (s, n, batchFree - 1)
      else drainList s migratetype (batchFree - 1) n

/-- The outer loop of `free_pcppages_bulk`; every turn frees a page, so `to_free` turns suffice. -/
def bulkFrom (s : PcpZone) (migratetype : ℕ) (batchFree : ℤ) (toFree : ℕ) : ℕ → Option PcpZone
  | 0 => if toFree = 0 then some s else none
  | n + 1 =>
    if toFree = 0 then some s
    else
      match nextList s.pcp batchFree migratetype migratePcptypes with
      | none => none
      | some next =>
        let drained := drainList s next.2 next.1 toFree
        bulkFrom drained.1 next.2 drained.2.2 drained.2.1 n

/-- `free_pcppages_bulk`; `to_free` counts down to zero as a word of 32 bits. -/
def freePcppagesBulk (s : PcpZone) (count : ℤ) : Option PcpZone :=
  let toFree := toUnsigned 32 count
  (bulkFrom s 0 0 toFree toFree).map fun r => { r with zone := modFreePages r.zone count }

/-- The list of the pageset for a migrate type. -/
def pcpType (migratetype : ℕ) : ℕ :=
  if migratePcptypes ≤ migratetype then migrateMovable else migratetype

/-- `list_add_tail` or `list_add` of a page to a list of the pageset. -/
def pcpAdd (s : PcpZone) (page t : ℕ) (cold : Bool) : PcpZone :=
  setPcpList s t (if cold then s.pcp.lists t ++ [page] else page :: s.pcp.lists t)

/-- `free_hot_cold_page` up to its check of the high watermark. -/
structure Queued where
  /-- The state. -/
  state : PcpZone
  /-- Whether the watermark is checked; otherwise the function is done. -/
  checks : Bool

/-- The part of `free_hot_cold_page` before the check of the high watermark. -/
def queuePage (s : PcpZone) (page : ℕ) (cold : Bool) : Queued :=
  let z := clearPageMlocked s.zone page
  let prepared := freePagesPrepare z.pages page 0
  let z := { z with pages := prepared.2 }
  if prepared.1 then
    let migratetype := getPageblockMigratetype z page
    let z := setPagePrivate z page migratetype
    if migratetype = migrateIsolate then
      ⟨{ s with zone := zoneFreeOnePage z page 0 migratetype }, false⟩
    else ⟨addCount (pcpAdd { s with zone := z } page (pcpType migratetype) cold) 1, true⟩
  else ⟨{ s with zone := z }, false⟩

/-- `free_hot_cold_page`. -/
def freeHotColdPage (s : PcpZone) (page : ℕ) (cold : Bool) : Option PcpZone :=
  let queued := queuePage s page cold
  if queued.checks ∧ queued.state.pcp.high ≤ queued.state.pcp.count then
    (freePcppagesBulk queued.state queued.state.pcp.batch).map fun r => addCount r (-r.pcp.batch)
  else some queued.state

/-- `__free_pages_ok`. -/
def freePagesOk (s : PcpZone) (page order : ℕ) : PcpZone :=
  let z := clearPageMlocked s.zone page
  let prepared := freePagesPrepare z.pages page order
  let z := { z with pages := prepared.2 }
  if prepared.1 then
    { s with zone := zoneFreeOnePage z page order (getPageblockMigratetype z page) }
  else { s with zone := z }

/-- The loop of `rmqueue_bulk`, with the pages left to take, on the list `before ++ after`. Pages
are linked after the last one, or before it for cold pages. -/
def rmqueueBulkFrom (z : Zone) (order migratetype : ℕ) (cold : Bool) (before after : List ℕ)
    (i : ℕ) : ℕ → Zone × ℕ × List ℕ
  | 0 => (z, i, before ++ after)
  | n + 1 =>
    match rmqueue z order migratetype with
    | none => (z, i, before ++ after)
    | some r =>
      let z := setPagePrivate r.2 r.1 migratetype
      if cold then rmqueueBulkFrom z order migratetype cold before (r.1 :: after) (i + 1) n
      else rmqueueBulkFrom z order migratetype cold (before ++ [r.1]) after (i + 1) n

/-- `rmqueue_bulk` to a list of the pageset: the state and the number of pages taken. -/
def rmqueueBulk (s : PcpZone) (order : ℕ) (count : ℕ) (migratetype : ℕ) (cold : Bool) :
    PcpZone × ℕ :=
  let list := s.pcp.lists migratetype
  let taken :=
    if cold then rmqueueBulkFrom s.zone order migratetype cold list [] 0 count
    else rmqueueBulkFrom s.zone order migratetype cold [] list 0 count
  let z := modFreePages taken.1 (-(taken.2.1 * 2 ^ order : ℕ))
  (setPcpList { s with zone := z } migratetype taken.2.2, taken.2.1)

/-- `buffered_rmqueue` up to `prep_new_page`: the page, when there is one. -/
def takePages (s : PcpZone) (order migratetype : ℕ) (cold : Bool) : Option ℕ × PcpZone :=
  if order = 0 then
    let s :=
      if s.pcp.lists migratetype = [] then
        let r := rmqueueBulk s 0 (toUnsigned 64 s.pcp.batch) migratetype cold
        addCount r.1 r.2
      else s
    let list := s.pcp.lists migratetype
    match if cold then list.getLast? else list.head? with
    | none => (none, s)
    | some page => (some page, addCount (pcpDel s page) (-1))
  else
    match rmqueue s.zone order migratetype with
    | none => (none, s)
    | some r => (some r.1, { s with zone := modFreePages r.2 (-2 ^ order) })

/-- The retry loop of `buffered_rmqueue`, with the attempts left. -/
def bufferedFrom (s : PcpZone) (order migratetype : ℕ) (gfp : GfpFlags) :
    ℕ → Option (Option ℕ × PcpZone)
  | 0 => none
  | n + 1 =>
    let taken := takePages s order migratetype gfp.cold
    match taken.1 with
    | none => some (none, taken.2)
    | some page =>
      let prepared := prepNewPage taken.2.zone.pages page order gfp
      let s := { taken.2 with zone := { taken.2.zone with pages := prepared.2 } }
      if prepared.1 then bufferedFrom s order migratetype gfp n else some (some page, s)

/-- The pages that the counters account for, on the free lists and on the pageset. -/
def accountedPages (s : PcpZone) : ℤ :=
  s.pcp.count + ∑ o ∈ Finset.range maxOrder, s.zone.nrFree o * 2 ^ o

/-- `buffered_rmqueue`. A rejected block leaves the lists for good, so the pages accounted for
bound the number of attempts. Single pages have lists for `MIGRATE_PCPTYPES` types only. -/
def bufferedRmqueue (s : PcpZone) (order migratetype : ℕ) (gfp : GfpFlags) :
    Option (Option ℕ × PcpZone) :=
  if order = 0 ∧ migratePcptypes ≤ migratetype then none
  else bufferedFrom s order migratetype gfp ((accountedPages s).toNat + 1)

end BiscuitOS.PcpModel
