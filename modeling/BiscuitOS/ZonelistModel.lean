import BiscuitOS.LoopRun
import BiscuitOS.ZoneFrames
import BiscuitOS.ZoneWatermark

/-!
# Allocation over the zones of the node

`alloc_pages` goes down the list of zones from the highest one the request
allows: once with the low watermark, and in its slow path with the minimum
one and perhaps with none, again and again when the request may not fail.
`__free_pages` gives a block back to the zone of its page. The body of
`zone_page_state` has no `return`, so its value is taken from outside, as is
that of `did_some_progress`, which nothing assigns.
-/

namespace BiscuitOS.ZonelistModel

open MachineWord LoopRun PageModel BuddyModel PcpModel BootPageset ZoneWatermark

/-- `___GFP_HIGHMEM`. -/
def gfpHighmem : ℕ := 0x02

/-- `___GFP_MOVABLE`. -/
def gfpMovable : ℕ := 0x08

/-- `___GFP_WAIT`. -/
def gfpWait : ℕ := 0x10

/-- `___GFP_HIGH`. -/
def gfpHigh : ℕ := 0x20

/-- `___GFP_COLD`. -/
def gfpCold : ℕ := 0x100

/-- `___GFP_REPEAT`. -/
def gfpRepeat : ℕ := 0x400

/-- `___GFP_NOFAIL`. -/
def gfpNofail : ℕ := 0x800

/-- `___GFP_NORETRY`. -/
def gfpNoretry : ℕ := 0x1000

/-- `___GFP_COMP`. -/
def gfpComp : ℕ := 0x4000

/-- `___GFP_NOMEMALLOC`. -/
def gfpNomemalloc : ℕ := 0x10000

/-- `___GFP_RECLAIMABLE`. -/
def gfpReclaimable : ℕ := 0x80000

/-- `GFP_ZONEMASK`. -/
def gfpZonemask : ℕ := 0x0f

/-- A flag of a request is set. -/
def has (gfpMask flag : ℕ) : Bool := gfpMask &&& flag ≠ 0

/-- What `buffered_rmqueue` reads of the flags. -/
def gfpFlags (gfpMask : ℕ) : GfpFlags := ⟨has gfpMask gfpComp, has gfpMask gfpCold⟩

/-- `GFP_ZONE_TABLE`, with two bits for each of `ZONE_NORMAL`, `ZONE_HIGHMEM` and `ZONE_MOVABLE`. -/
def gfpZoneTable : ℕ := 1 <<< (gfpHighmem * 2) ||| 2 <<< ((gfpMovable ||| gfpHighmem) * 2)

/-- `gfp_zone`. -/
def gfpZone (gfpMask : ℕ) : ℕ := gfpZoneTable >>> ((gfpMask &&& gfpZonemask) * 2) &&& 3

/-- `allocflags_to_migratetype`. -/
def allocflagsToMigratetype (mobilityDisabled : Bool) (gfpMask : ℕ) : ℕ :=
  if mobilityDisabled then migrateUnmovable
  else (if has gfpMask gfpMovable then 2 else 0) + if has gfpMask gfpReclaimable then 1 else 0

/-- What the slow path reads of the current task. -/
structure CurrentTask where
  /-- `rt_task(current)`. -/
  realtime : Bool
  /-- `PF_MEMALLOC`. -/
  memalloc : Bool
  /-- `TIF_MEMDIE`. -/
  memdie : Bool

/-- What the list of zones and the watermarks are made from. -/
structure ZoneLimits where
  /-- `present_pages`. -/
  presentPages : ℕ
  /-- `watermark`. -/
  watermark : ℕ → ℕ
  /-- `lowmem_reserve`. -/
  lowmemReserve : ℕ → ℕ

/-- The zones of the node, each with a pageset of its own. -/
structure Zones where
  /-- `node_zones`, whose descriptors are those of `mem_map`. -/
  zones : ℕ → Zone
  /-- `mem_map`. -/
  pages : Pages
  /-- `pageset` of each zone. -/
  pagesets : ℕ → PerCpuPages
  /-- The limits of each zone. -/
  limits : ℕ → ZoneLimits
  /-- `page_group_by_mobility_disabled`. -/
  mobilityDisabled : Bool

/-- A zone with the descriptors and its pageset. -/
def view (s : Zones) (i : ℕ) : PcpZone :=
  ⟨{ s.zones i with pages := s.pages, mobilityDisabled := s.mobilityDisabled }, s.pagesets i⟩

/-- The node after a function has worked on a zone. -/
def settle (s : Zones) (i : ℕ) (v : PcpZone) : Zones where
  zones := Function.update s.zones i v.zone
  pages := v.zone.pages
  pagesets := Function.update s.pagesets i v.pcp
  limits := s.limits
  mobilityDisabled := s.mobilityDisabled

/-- `struct zoneref`. -/
structure Zoneref where
  /-- `zone`. -/
  zone : Option ℕ
  /-- `zone_idx`. -/
  zoneIdx : ℕ

/-- `build_zonelists_node`, from a zone down. -/
def buildZonelistsNode (limits : ℕ → ZoneLimits) (zoneType : ℕ) : List Zoneref :=
  let here := if (limits zoneType).presentPages ≠ 0 then [⟨some zoneType, zoneType⟩] else []
  match zoneType with
  | 0 => here
  | below + 1 => here ++ buildZonelistsNode limits below

/-- `build_zonelists` for the only node: the populated zones, and an entry of zeros. -/
def buildZonelists (limits : ℕ → ZoneLimits) : List Zoneref :=
  buildZonelistsNode limits (maxNrZones - 1) ++ [⟨none, 0⟩]

/-- `next_zones_zonelist` from a cursor on. -/
def nextZonesZonelist (highestZoneidx : ℕ) (z : List Zoneref) : List Zoneref :=
  z.dropWhile fun r => highestZoneidx < r.zoneIdx

/-- `first_zones_zonelist`: the zone. -/
def firstZonesZonelist (zonelist : List Zoneref) (highestZoneidx : ℕ) : Option ℕ :=
  (nextZonesZonelist highestZoneidx zonelist).head?.bind Zoneref.zone

/-- `ALLOC_NO_WATERMARKS`. -/
def allocNoWatermarks : ℕ := 0x04

/-- `ALLOC_WMARK_MASK`. -/
def allocWmarkMask : ℕ := allocNoWatermarks - 1

/-- `ALLOC_CPUSET`, which `cpuset_zone_allowed_softwall` grants everywhere. -/
def allocCpuset : ℕ := 0x40

/-- `zone_watermark_ok` for a value of `zone_page_state`. -/
def watermarkOk (nrFree : ℕ → ℕ) (lowmemReserve order mark allocFlags : ℕ) (free : ℤ) : Bool :=
  let min := toSigned 64 mark
  let free := toSigned 64 (free - ((1 <<< order : ℕ) + 1))
  let min := if allocFlags &&& allocHigh ≠ 0 then min - min.tdiv 2 else min
  let min := if allocFlags &&& allocHarder ≠ 0 then min - min.tdiv 4 else min
  if toUnsigned 64 free ≤ wrap 64 (toUnsigned 64 min + lowmemReserve) then false
  else checkOrders nrFree order 0 free min

/-- It is the check of the zone that the watermarks are about. -/
theorem watermarkOk_eq (z : Watched) (order mark classzoneIdx allocFlags : ℕ) :
    watermarkOk z.nrFree (z.lowmemReserve classzoneIdx) order mark allocFlags
      (toSigned 64 z.freePages) = zoneWatermarkOk z order mark classzoneIdx allocFlags := rfl

/-- A request as `get_page_from_freelist` sees it. -/
structure Request where
  /-- `gfp_mask`. -/
  gfpMask : ℕ
  /-- `order`. -/
  order : ℕ
  /-- `high_zoneidx`. -/
  highZoneidx : ℕ
  /-- The index of `preferred_zone`. -/
  classzoneIdx : ℕ
  /-- `migratetype`. -/
  migratetype : ℕ

/-- Whether a zone may be tried, for a value of `zone_page_state`. -/
def worthTrying (r : Request) (allocFlags : ℕ) (pageState : ℕ → ℤ) (s : Zones) (i : ℕ) : Bool :=
  allocFlags &&& allocNoWatermarks ≠ 0 ∨
    watermarkOk (fun o => toUnsigned 64 ((s.zones i).nrFree o))
      ((s.limits i).lowmemReserve r.classzoneIdx) r.order
      ((s.limits i).watermark (allocFlags &&& allocWmarkMask)) allocFlags (pageState i)

/-- `get_page_from_freelist` from a cursor on; nothing when `buffered_rmqueue` does not end. -/
def getPageFromFreelist (r : Request) (allocFlags : ℕ) (pageState : ℕ → ℤ) :
    List Zoneref → Zones → Option (Option ℕ × Zones)
  | [], s => some (none, s)
  | z :: rest, s =>
    if r.highZoneidx < z.zoneIdx then getPageFromFreelist r allocFlags pageState rest s
    else
      match z.zone with
      | none => some (none, s)
      | some i =>
        if worthTrying r allocFlags pageState s i then
          match bufferedRmqueue (view s i) r.order r.migratetype (gfpFlags r.gfpMask) with
          | none => none
          | some (some page, v) => some (some page, settle s i v)
          | some (none, v) => getPageFromFreelist r allocFlags pageState rest (settle s i v)
        else getPageFromFreelist r allocFlags pageState rest s

/-- `gfp_to_alloc_flags`. -/
def gfpToAllocFlags (task : CurrentTask) (gfpMask : ℕ) : ℕ :=
  let allocFlags := allocCpuset ||| gfpMask &&& gfpHigh
  let allocFlags :=
    if has gfpMask gfpWait then
      if task.realtime then allocFlags ||| allocHarder else allocFlags
    else
      let allocFlags :=
        if has gfpMask gfpNomemalloc then allocFlags else allocFlags ||| allocHarder
      allocFlags ^^^ (allocFlags &&& allocCpuset)
  if !has gfpMask gfpNomemalloc ∧ (task.memalloc ∨ task.memdie) then
    allocFlags ||| allocNoWatermarks
  else allocFlags

/-- `PAGE_ALLOC_COSTLY_ORDER`. -/
def pageAllocCostlyOrder : ℕ := 3

/-- `should_alloc_retry`. -/
def shouldAllocRetry (gfpMask order pagesReclaimed : ℕ) : Bool :=
  if has gfpMask gfpNoretry then false
  else if order ≤ pageAllocCostlyOrder then true
  else if has gfpMask gfpRepeat ∧ pagesReclaimed < 1 <<< order then true
  else has gfpMask gfpNofail

/-- Where the slow path is. -/
inductive Phase
  /-- At the label `rebalance`. -/
  | rebalance
  /-- In the loop of `__alloc_pages_high_priority`. -/
  | highPriority
  deriving DecidableEq

/-- The slow path after `__alloc_pages_high_priority`: `__alloc_pages_direct_compact` gives none. -/
def afterHighPriority (task : CurrentTask) (r : Request) (progress : ℕ) (s : Zones) (pagesReclaimed : ℕ) :
    (Phase × Zones × ℕ) ⊕ Option (Option ℕ × Zones) :=
  if !has r.gfpMask gfpWait ∨ task.memalloc ∨ (task.memdie ∧ !has r.gfpMask gfpNofail) then
    .inr (some (none, s))
  else
    let pagesReclaimed := wrap 64 (pagesReclaimed + progress)
    if shouldAllocRetry r.gfpMask r.order pagesReclaimed then
      .inl (.rebalance, s, pagesReclaimed)
    else .inr (some (none, s))

/-- The slow path from the label `rebalance` on. -/
def slowStep (task : CurrentTask) (r : Request) (zonelist : List Zoneref) (allocFlags progress : ℕ) :
    Phase × Zones × ℕ → (Phase × Zones × ℕ) ⊕ Option (Option ℕ × Zones)
  | (.rebalance, s, pagesReclaimed) =>
    if allocFlags &&& allocNoWatermarks ≠ 0 then .inl (.highPriority, s, pagesReclaimed)
    else afterHighPriority task r progress s pagesReclaimed
  | (.highPriority, s, pagesReclaimed) =>
    match getPageFromFreelist r allocNoWatermarks (fun _ => 0) zonelist s with
    | none => .inr none
    | some (some page, u) => .inr (some (some page, u))
    | some (none, u) =>
      if has r.gfpMask gfpNofail then .inl (.highPriority, u, pagesReclaimed)
      else afterHighPriority task r progress u pagesReclaimed

/-- `__alloc_pages_slowpath`, with fuel for its loops. -/
def allocPagesSlowpath (fuel : ℕ) (task : CurrentTask) (r : Request) (zonelist : List Zoneref)
    (pageState : ℕ → ℤ) (progress : ℕ) (s : Zones) : Option (Option ℕ × Zones) :=
  if maxOrder ≤ r.order then some (none, s)
  else
    let allocFlags := gfpToAllocFlags task r.gfpMask
    let watched := allocFlags ^^^ (allocFlags &&& allocNoWatermarks)
    match getPageFromFreelist r watched pageState zonelist s with
    | none => none
    | some (some page, u) => some (some page, u)
    | some (none, u) =>
      (loop (slowStep task r zonelist allocFlags progress) fuel (.rebalance, u, 0)).join

/-- What is outside the model during a request: the current task, the values of `zone_page_state`
in the two passes with watermarks, and `did_some_progress`. -/
structure Surroundings where
  /-- The current task. -/
  task : CurrentTask
  /-- `zone_page_state` in the first pass. -/
  first : ℕ → ℤ
  /-- `zone_page_state` in the first pass of the slow path. -/
  second : ℕ → ℤ
  /-- `did_some_progress`. -/
  progress : ℕ

/-- `___GFP_HARDWALL`. -/
def gfpHardwall : ℕ := 0x20000

/-- `ALLOC_WMARK_LOW`. -/
def allocWmarkLow : ℕ := 1

/-- `__alloc_pages_nodemask`, with fuel for the loops of its slow path. -/
def allocPagesNodemask (fuel : ℕ) (allowedMask : ℕ) (x : Surroundings) (gfpMask order : ℕ)
    (s : Zones) : Option (Option ℕ × Zones) :=
  let highZoneidx := gfpZone gfpMask
  let migratetype := allocflagsToMigratetype s.mobilityDisabled gfpMask
  let gfpMask := gfpMask &&& allowedMask
  let zonelist := buildZonelists s.limits
  if zonelist.head?.bind Zoneref.zone = none then some (none, s)
  else
    match firstZonesZonelist zonelist highZoneidx with
    | none => some (none, s)
    | some classzoneIdx =>
      let r : Request := ⟨gfpMask, order, highZoneidx, classzoneIdx, migratetype⟩
      let hardwall := { r with gfpMask := gfpMask ||| gfpHardwall }
      match getPageFromFreelist hardwall (allocWmarkLow ||| allocCpuset) x.first zonelist s with
      | none => none
      | some (some page, u) => some (some page, u)
      | some (none, u) => allocPagesSlowpath fuel x.task r zonelist x.second x.progress u

/-- `put_page_testzero`: the count after it. -/
def dropReference (pages : Pages) (page : ℕ) : Pages :=
  setPage pages page { pages page with count := (pages page).count - 1 }

/-- `__free_pages`: the zone is that of the page. -/
def freePages (page order : ℕ) (s : Zones) : Option Zones :=
  let s := { s with pages := dropReference s.pages page }
  let i := pageZoneId (s.pages page)
  if (s.pages page).count = 0 then
    if order = 0 then (freeHotColdPage (view s i) page false).map (settle s i)
    else some (settle s i (freePagesOk (view s i) page order))
  else some s

end BiscuitOS.ZonelistModel
