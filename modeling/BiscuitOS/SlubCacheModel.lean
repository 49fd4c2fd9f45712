import BiscuitOS.LoopRun
import BiscuitOS.SlubLayout

/-!
# A cache of objects

The objects of a slab are handed out from the cpu slab, from a slab of the
partial list or from a new slab, and go back to the slab they are from. A
cache has slabs of one page. What must never happen is recorded: a list entry
deleted that is on no list, a page given back that was not taken, a lock taken
twice, a pointer followed that is not set, and a loop that does not end.
-/

namespace BiscuitOS.SlubCacheModel

open MachineWord ByteMemory LoopRun SlubLayout

/-- `ENOMEM`. -/
def enomem : ℤ := 12

/-- `NUMA_NO_NODE`. -/
def numaNoNode : ℤ := -1

/-- `struct kmem_cache`, with what the layout of a slab does not need. -/
structure CacheDesc extends KmemCache where
  /-- `min_partial`. -/
  minPartial : ℕ
  /-- The number of the cache, which stands for its address in `slab` of a page. -/
  index : ℕ

/-- `MIN_PARTIAL`. -/
def minPartialLeast : ℕ := 5

/-- `MAX_PARTIAL`. -/
def minPartialMost : ℕ := 10

/-- `set_min_partial`: the bound kept. -/
def setMinPartial (min : ℕ) : ℕ :=
  if min < minPartialLeast then minPartialLeast
  else if min > minPartialMost then minPartialMost
  else min

/-- `kmem_cache_open` of a cache that was laid out, as one of many. -/
def numbered (k : KmemCache) (index : ℕ) : CacheDesc where
  toKmemCache := k
  minPartial := setMinPartial (Nat.log2 (toUnsigned 64 k.size))
  index := index

@[simp] theorem numbered_toKmemCache (k : KmemCache) (index : ℕ) :
    (numbered k index).toKmemCache = k := rfl

/-- `struct page` of a slab. -/
structure SlabDesc where
  /-- `slab`. -/
  slab : ℕ
  /-- `objects`. -/
  objects : ℕ
  /-- `inuse`. -/
  inuse : ℕ
  /-- `freelist`. -/
  freelist : ℕ
  /-- `PG_slub_frozen`. -/
  frozen : Bool
  /-- `PG_locked`. -/
  locked : Bool
  /-- `PG_slab`. -/
  pageSlab : Bool

/-- What a cache works on: the memory and the pages, its own pages, `struct kmem_cache_cpu` and
`struct kmem_cache_node`. -/
structure SlubState where
  /-- The bytes of the memory. -/
  memory : Memory
  /-- `struct page`, by page number. -/
  pages : ℕ → SlabDesc
  /-- The pages that were taken from the page allocator and not given back. -/
  taken : List ℕ
  /-- `freelist` of the cpu. -/
  cpuFreelist : ℕ
  /-- `page` of the cpu. -/
  cpuPage : Option ℕ
  /-- `node` of the cpu. -/
  cpuNode : ℤ
  /-- `nr_partial`. -/
  nrPartial : ℕ
  /-- `partial`. -/
  partialList : List ℕ
  /-- Something happened that must not. -/
  broken : Bool

/-- Change the descriptor of a page. -/
def SlubState.setDesc (t : SlubState) (page : ℕ) (d : SlabDesc) : SlubState :=
  { t with pages := Function.update t.pages page d }

/-- `get_freepointer`. -/
def getFreepointer (s : KmemCache) (m : Memory) (object : ℕ) : ℕ :=
  load m (object + toUnsigned 64 s.offset) 8

/-- `slab_lock`; a second lock is waited for without end. -/
def slabLock (t : SlubState) (page : ℕ) : SlubState :=
  if (t.pages page).locked then { t with broken := true }
  else t.setDesc page { t.pages page with locked := true }

/-- `slab_unlock`. -/
def slabUnlock (t : SlubState) (page : ℕ) : SlubState :=
  t.setDesc page { t.pages page with locked := false }

/-- `add_partial`. -/
def addPartial (t : SlubState) (page : ℕ) (tail : Bool) : SlubState :=
  { t with
    nrPartial := wrap 64 (t.nrPartial + 1)
    partialList := if tail then t.partialList ++ [page] else page :: t.partialList }

/-- `__remove_partial` and `remove_partial`. -/
def removePartial (t : SlubState) (page : ℕ) : SlubState :=
  if page ∈ t.partialList then
    { t with partialList := t.partialList.erase page, nrPartial := wrapSub 64 t.nrPartial 1 }
  else { t with broken := true }

/-- `discard_slab`, `free_slab` and `__free_slab` of a page; with `SLAB_DESTROY_BY_RCU` set
`free_slab` stops. -/
def discardSlab (s : CacheDesc) (t : SlubState) (page : ℕ) : SlubState :=
  if s.flags &&& slabDestroyByRcu ≠ 0 then { t with broken := true }
  else if page ∈ t.taken then
    { t.setDesc page { t.pages page with pageSlab := false } with taken := t.taken.erase page }
  else { t with broken := true }

/-- `unfreeze_slab`. -/
def unfreezeSlab (s : CacheDesc) (t : SlubState) (page : ℕ) (tail : Bool) : SlubState :=
  let t := t.setDesc page { t.pages page with frozen := false }
  if (t.pages page).inuse ≠ 0 then
    slabUnlock (if (t.pages page).freelist ≠ 0 then addPartial t page tail else t) page
  else if t.nrPartial < s.minPartial then slabUnlock (addPartial t page true) page
  else discardSlab s (slabUnlock t page) page

/-- A round of the loop of `deactive_slab`: an object goes from the cpu to the page. -/
def mergeObject (s : CacheDesc) (page : ℕ) (t : SlubState) : SlubState :=
  let object := t.cpuFreelist
  let next := getFreepointer s.toKmemCache t.memory object
  let d := t.pages page
  let m := setFreepointer s.toKmemCache t.memory object d.freelist
  { t.setDesc page { d with freelist := object, inuse := wrapSub 16 d.inuse 1 } with
    memory := m, cpuFreelist := next }

/-- The loop of `deactive_slab`, with the value of `tail`. -/
def mergeFreelist (s : CacheDesc) (page : ℕ) : ℕ → Bool → SlubState → Bool × SlubState
  | 0, tail, t => (tail, { t with broken := true })
  | fuel + 1, tail, t =>
    if t.cpuFreelist = 0 then (tail, t) else mergeFreelist s page fuel false (mergeObject s page t)

/-- `deactive_slab`; a page has less than `2 ^ 16` objects. -/
def deactiveSlab (s : CacheDesc) (t : SlubState) : SlubState :=
  match t.cpuPage with
  | none => { t with broken := true }
  | some page =>
    let r := mergeFreelist s page (2 ^ 16) true t
    unfreezeSlab s { r.2 with cpuPage := none } page r.1

/-- `flush_slab`. -/
def flushSlab (s : CacheDesc) (t : SlubState) : SlubState :=
  match t.cpuPage with
  | none => { t with broken := true }
  | some page => deactiveSlab s (slabLock t page)

/-- `lock_and_freeze_slab` of a page that is not locked. -/
def lockAndFreezeSlab (t : SlubState) (page : ℕ) : SlubState :=
  let t := removePartial (slabLock t page) page
  t.setDesc page { t.pages page with frozen := true }

/-- `get_partial` and `get_partial_node`: the first page of the list that can be locked. -/
def getPartial (t : SlubState) : Option (ℕ × SlubState) :=
  if t.nrPartial = 0 then none
  else (t.partialList.find? fun page => !(t.pages page).locked).map fun page =>
    (page, lockAndFreezeSlab t page)

/-- The answer of `alloc_slab_page` for a page: the address of its memory and its order. -/
def blockOf (page : Option ℕ) : Option (ℕ × ℕ) := page.map fun p => (p * pageSize, 0)

/-- `new_slab`, given the answers of the page allocator for `oo` and for `min`. -/
def newSlabPage (s : CacheDesc) (t : SlubState) (first second : Option ℕ) :
    Option (ℕ × SlubState) :=
  (newSlab s.toKmemCache t.memory (blockOf first) (blockOf second)).map fun r =>
    let page := r.1.start / pageSize
    (page, { t.setDesc page
      { t.pages page with
        slab := s.index
        objects := r.1.objects
        inuse := r.1.inuse
        freelist := r.1.freelist
        pageSlab := true } with
      memory := r.2, taken := page :: t.taken })

/-- The places of `__slab_alloc` that are jumped to. -/
inductive Label
  /-- `load_freelist`. -/
  | loadFreelist
  /-- `new_slab`. -/
  | newSlab
  deriving DecidableEq

/-- The end of `__slab_alloc`: the list of the slab becomes the list of the cpu, but for its first
object. -/
def loadFreelist (s : CacheDesc) (t : SlubState) (page : ℕ) : ℕ × SlubState :=
  let d := t.pages page
  let next := getFreepointer s.toKmemCache t.memory d.freelist
  (d.freelist, slabUnlock { t.setDesc page { d with inuse := d.objects, freelist := 0 } with
    cpuFreelist := next, cpuNode := 0 } page)

/-- What `__slab_alloc` does with a page from `new_slab`. -/
def takeSlab (s : CacheDesc) (t : SlubState) (page : ℕ) : SlubState :=
  let t := slabLock (if t.cpuPage.isSome then flushSlab s t else t) page
  { t.setDesc page { t.pages page with frozen := true } with cpuPage := some page }

/-- `__slab_alloc` from a label to the next one or to its end. -/
def slabAllocStep (s : CacheDesc) (first second : Option ℕ) :
    Label × SlubState → (Label × SlubState) ⊕ (ℕ × SlubState)
  | (.loadFreelist, t) =>
    match t.cpuPage with
    | none => .inr (0, { t with broken := true })
    | some page =>
      if (t.pages page).freelist = 0 then .inl (.newSlab, deactiveSlab s t)
      else .inr (loadFreelist s t page)
  | (.newSlab, t) =>
    match getPartial t with
    | some (page, t) => .inl (.loadFreelist, { t with cpuPage := some page })
    | none =>
      match newSlabPage s t first second with
      | none => .inr (0, t)
      | some (page, t) => .inl (.loadFreelist, takeSlab s t page)

/-- Where `__slab_alloc` begins. -/
def slabAllocEntry (t : SlubState) : Label × SlubState :=
  match t.cpuPage with
  | none => (.newSlab, t)
  | some page => (.loadFreelist, slabLock t page)

/-- `__slab_alloc`: the object, or zero. Each time round a page leaves the partial list. -/
def slabAllocSlow (s : CacheDesc) (t : SlubState) (first second : Option ℕ) : ℕ × SlubState :=
  match loop (slabAllocStep s first second) (2 * t.partialList.length + 4) (slabAllocEntry t) with
  | some r => r
  | none => (0, { t with broken := true })

/-- `memset` to zero. -/
def clear (m : Memory) (a n : ℕ) : Memory := fun b => if a ≤ b ∧ b < a + n then 0 else m b

/-- `slab_alloc`; `zero` tells whether `__GFP_ZERO` is asked for. -/
def slabAlloc (s : CacheDesc) (t : SlubState) (zero : Bool) (first second : Option ℕ) :
    ℕ × SlubState :=
  let r :=
    if t.cpuFreelist = 0 then slabAllocSlow s t first second
    else (t.cpuFreelist,
      { t with cpuFreelist := getFreepointer s.toKmemCache t.memory t.cpuFreelist })
  if zero ∧ r.1 ≠ 0 then
    (r.1, { r.2 with memory := clear r.2.memory r.1 (toUnsigned 64 s.objsize) })
  else r

/-- `__slab_free`. -/
def slabFreeSlow (s : CacheDesc) (t : SlubState) (page x : ℕ) : SlubState :=
  let t := slabLock t page
  let d := t.pages page
  let prior := d.freelist
  let t := { t.setDesc page { d with freelist := x, inuse := wrapSub 16 d.inuse 1 } with
    memory := setFreepointer s.toKmemCache t.memory x prior }
  if (t.pages page).frozen then slabUnlock t page
  else if (t.pages page).inuse = 0 then
    discardSlab s (slabUnlock (if prior ≠ 0 then removePartial t page else t) page) page
  else slabUnlock (if prior = 0 then addPartial t page true else t) page

/-- `slab_free`. -/
def slabFree (s : CacheDesc) (t : SlubState) (page x : ℕ) : SlubState :=
  if t.cpuPage = some page ∧ t.cpuNode ≠ numaNoNode then
    { t with
      memory := setFreepointer s.toKmemCache t.memory x t.cpuFreelist
      cpuFreelist := x }
  else slabFreeSlow s t page x

/-- `kmem_cache_free`; a page of its own is found by `virt_to_head_page`. -/
def kmemCacheFree (s : CacheDesc) (t : SlubState) (x : ℕ) : SlubState :=
  slabFree s t (x / pageSize) x

/-- `flush_all`. -/
def flushAll (s : CacheDesc) (t : SlubState) : SlubState :=
  if t.cpuPage.isSome then flushSlab s t else t

/-- `slab_trylock` in a condition. -/
def canLock (t : SlubState) (page : ℕ) : Bool := !(t.pages page).locked

/-- `list_move` from the partial list. -/
def leavePartial (t : SlubState) (page : ℕ) : SlubState :=
  if page ∈ t.partialList then { t with partialList := t.partialList.erase page }
  else { t with broken := true }

/-- A round of the first loop of `kmem_cache_shrink`, with the lists of `slabs_by_inuse`. -/
def shrinkPage (s : CacheDesc) (objects : ℕ) (r : SlubState × (ℕ → List ℕ)) (page : ℕ) :
    SlubState × (ℕ → List ℕ) :=
  let t := r.1
  let inuse := (t.pages page).inuse
  if inuse = 0 ∧ canLock t page then
    (discardSlab s (slabUnlock (removePartial (slabLock t page) page) page) page, r.2)
  else if inuse < objects then
    (leavePartial t page, Function.update r.2 inuse (page :: r.2 inuse))
  else ({ t with broken := true }, r.2)

/-- The second loop of `kmem_cache_shrink`: the lists are spliced at the tail, the last one
first. -/
def spliceLists (buckets : ℕ → List ℕ) : ℕ → List ℕ → List ℕ
  | 0, list => list
  | i + 1, list => spliceLists buckets i (list ++ buckets i)

/-- `kmem_cache_shrink`; `granted` tells whether `kmalloc` gives the array of lists, whose
objects the model takes from and gives back to caches other than this one. -/
def kmemCacheShrink (s : CacheDesc) (t : SlubState) (granted : Bool) : ℤ × SlubState :=
  let objects := ooObjects s.max
  if granted then
    let t := flushAll s t
    if t.nrPartial = 0 then (0, t)
    else
      let r := t.partialList.foldl (shrinkPage s objects) (t, fun _ => [])
      (0, { r.1 with partialList := spliceLists r.2 objects r.1.partialList })
  else (-enomem, t)

/-- A round of the loop of `free_partial`. -/
def freePartialPage (s : CacheDesc) (t : SlubState) (page : ℕ) : SlubState :=
  if (t.pages page).inuse = 0 then discardSlab s (removePartial t page) page else t

/-- `free_partial`. -/
def freePartial (s : CacheDesc) (t : SlubState) : SlubState :=
  t.partialList.foldl (freePartialPage s) t

/-- `kmem_cache_close`, as far as the slabs go: one tells that a slab is left on the list. -/
def kmemCacheClose (s : CacheDesc) (t : SlubState) : ℤ × SlubState :=
  let t := freePartial s (flushAll s t)
  (if t.nrPartial ≠ 0 then 1 else 0, t)

end BiscuitOS.SlubCacheModel
