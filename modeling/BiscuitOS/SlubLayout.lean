import BiscuitOS.MachineWord
import BiscuitOS.ByteMemory

/-!
# The layout of slabs

`calculate_sizes` of `mm/slub.c` with the search for an order, and `new_slab`
with the construction of its list of free objects. There is no debugging, so
`kmem_cache_flags` answers the flags and an object is set up by its
constructor only. An `int` is an integer, an `unsigned long` a natural number
below `2 ^ 64`; conversions between them are written out.
-/

namespace BiscuitOS.SlubLayout

open MachineWord ByteMemory

/-- `PAGE_SHIFT`. -/
def pageShift : ℕ := 12

/-- `PAGE_SIZE`. -/
def pageSize : ℕ := 4096

/-- `MAX_ORDER`. -/
def maxOrder : ℕ := 11

/-- `ENOSYS`. -/
def enosys : ℤ := 38

/-- `SLAB_POISON`. -/
def slabPoison : ℕ := 0x800

/-- `SLAB_HWCACHE_ALIGN`. -/
def slabHwcacheAlign : ℕ := 0x2000

/-- `SLAB_CACHE_DMA`. -/
def slabCacheDma : ℕ := 0x4000

/-- `SLAB_RECLAIM_ACCOUNT`. -/
def slabReclaimAccount : ℕ := 0x20000

/-- `SLAB_DESTROY_BY_RCU`. -/
def slabDestroyByRcu : ℕ := 0x80000

/-- `MAX_OBJS_PER_PAGE`. -/
def maxObjsPerPage : ℕ := 65535

/-- `slub_min_order`. -/
def slubMinOrder : ℕ := 0

/-- `slub_max_order`. -/
def slubMaxOrder : ℕ := 3

/-- `slub_min_objects`. -/
def slubMinObjects : ℕ := 0

/-- `nr_cpu_ids`. -/
def nrCpuIds : ℤ := 1

/-- `cache_line_size`. -/
def cacheLineSize : ℕ := 1 <<< 5

/-- `ARCH_SLAB_MINALIGN`. -/
def archSlabMinalign : ℕ := 8

/-- `sizeof(void *)`. -/
def sizeofPointer : ℕ := 8

/-- `OO_SHIFT`. -/
def ooShift : ℕ := 16

/-- `POISON_INUSE`. -/
def poisonInuse : ℕ := 0x5a

/-- `fls`. -/
def fls (x : ℤ) : ℕ := Nat.size (toUnsigned 32 x)

/-- The loop of `get_order`. -/
def orderFrom : ℕ → ℕ → ℕ → ℕ
  | 0, _, order => order
  | fuel + 1, size, order => if size / 2 = 0 then order else orderFrom fuel (size / 2) (order + 1)

/-- `get_order`. -/
def getOrder (size : ℕ) : ℕ :=
  if size = 0 then 0 else orderFrom 64 ((size - 1) >>> (pageShift - 1)) 0

/-- The loop of `slab_order`: `max_order` rounds end it. -/
def slabOrderFrom (size : ℤ) (minObjects maxOrder fractLeftover : ℕ) : ℕ → ℕ → ℕ
  | 0, order => order
  | fuel + 1, order =>
    if maxOrder < order then order
    else
      let slabSize := pageSize <<< order
      if slabSize < toUnsigned 64 (toSigned 32 (minObjects * size)) then
        slabOrderFrom size minObjects maxOrder fractLeftover fuel (order + 1)
      else
        let rem := toSigned 32 (slabSize % toUnsigned 64 size : ℕ)
        if toUnsigned 64 rem ≤ slabSize / fractLeftover then order
        else slabOrderFrom size minObjects maxOrder fractLeftover fuel (order + 1)

/-- `slab_order`. -/
def slabOrder (size : ℤ) (minObjects maxOrder fractLeftover : ℕ) : ℕ :=
  if maxObjsPerPage < (pageSize <<< slubMinOrder) / toUnsigned 64 size then
    getOrder (toUnsigned 64 (toSigned 32 (size * maxObjsPerPage))) - 1
  else
    slabOrderFrom size minObjects maxOrder fractLeftover (maxOrder + 1)
      (max slubMinOrder (fls (toSigned 32 (toSigned 32 (minObjects * size) - 1)) - pageShift))

/-- The loop of `calculate_order` over the fractions of a slab that may be wasted. -/
def tryFractions (size : ℤ) (minObjects : ℕ) : ℕ → ℕ → Option ℕ
  | 0, _ => none
  | fuel + 1, fraction =>
    if fraction < 4 then none
    else
      let order := slabOrder size minObjects slubMaxOrder fraction
      if order ≤ slubMaxOrder then some order else tryFractions size minObjects fuel (fraction / 2)

/-- The loop of `calculate_order` over the numbers of objects. -/
def tryObjects (size : ℤ) : ℕ → Option ℕ
  | 0 => none
  | 1 => none
  | n + 2 =>
    match tryFractions size (n + 2) 16 16 with
    | some order => some order
    | none => tryObjects size (n + 1)

/-- `calculate_order`. -/
def calculateOrder (size : ℤ) : ℤ :=
  let wanted := if slubMinObjects = 0 then 4 * (fls nrCpuIds + 1) else slubMinObjects
  let maxObjects := (pageSize <<< slubMaxOrder) / toUnsigned 64 size
  match tryObjects size (min wanted maxObjects) with
  | some order => order
  | none =>
    let order := slabOrder size 1 slubMaxOrder 1
    if order ≤ slubMaxOrder then order
    else
      let order := slabOrder size 1 maxOrder 1
      if order < maxOrder then order else -enosys

/-- `struct kmem_cache`, as far as the layout goes. A constructor is a function on memories. -/
structure KmemCache where
  /-- `flags`. -/
  flags : ℕ
  /-- `size`. -/
  size : ℤ
  /-- `objsize`. -/
  objsize : ℤ
  /-- `offset`. -/
  offset : ℤ
  /-- `oo`. -/
  oo : ℕ
  /-- `max`. -/
  max : ℕ
  /-- `min`. -/
  min : ℕ
  /-- `allocflags`: `__GFP_COMP`, `SLUB_DMA` and `__GFP_RECLAIMABLE`. -/
  allocflags : Bool × Bool × Bool
  /-- `ctor`. -/
  ctor : Option (ℕ → Memory → Memory)
  /-- `inuse`. -/
  inuse : ℤ
  /-- `align`. -/
  align : ℤ

/-- `oo_make`. -/
def ooMake (order size : ℕ) : ℕ := (order <<< ooShift) + (pageSize <<< order) / size

/-- `oo_order`. -/
def ooOrder (x : ℕ) : ℕ := x >>> ooShift

/-- `oo_objects`. -/
def ooObjects (x : ℕ) : ℕ := x &&& (2 ^ ooShift - 1)

/-- The loop of `calculate_alignment`. -/
def halveAlign (size : ℕ) : ℕ → ℕ → ℕ
  | 0, ralign => ralign
  | fuel + 1, ralign => if size ≤ ralign / 2 then halveAlign size fuel (ralign / 2) else ralign

/-- `calculate_alignment`. -/
def calculateAlignment (flags align size : ℕ) : ℕ :=
  let align :=
    if flags &&& slabHwcacheAlign ≠ 0 then max align (halveAlign size 64 cacheLineSize) else align
  let align := if align < archSlabMinalign then archSlabMinalign else align
  alignUp 64 align sizeofPointer

/-- Whether the free pointer may not lie in the object. -/
def relocates (s : KmemCache) : Bool :=
  decide (s.flags &&& (slabDestroyByRcu ||| slabPoison) ≠ 0) || s.ctor.isSome

/-- `calculate_sizes` with a negative `forced_order`: the cache and the answer. -/
def calculateSizes (s : KmemCache) : KmemCache × Bool :=
  let objsize := toUnsigned 64 s.objsize
  let inuse := alignUp 64 objsize sizeofPointer
  let offset := if relocates s then toSigned 32 inuse else s.offset
  let used := if relocates s then wrap 64 (inuse + sizeofPointer) else inuse
  let align := calculateAlignment s.flags (toUnsigned 64 s.align) objsize
  let size := alignUp 64 used align
  let order := calculateOrder (toSigned 32 size)
  let s := { s with
    inuse := toSigned 32 inuse
    offset := offset
    align := toSigned 32 align
    size := toSigned 32 size }
  if order < 0 then (s, false)
  else
    let oo := ooMake order.toNat size
    ({ s with
        allocflags := (decide (order ≠ 0), decide (s.flags &&& slabCacheDma ≠ 0),
          decide (s.flags &&& slabReclaimAccount ≠ 0))
        oo := oo
        min := ooMake (getOrder size) size
        max := if ooObjects s.max < ooObjects oo then oo else s.max },
      decide (ooObjects oo ≠ 0))

/-- The cache that `kmem_cache_open` hands to `calculate_sizes`. -/
def openedCache (size align : ℤ) (flags : ℕ) (ctor : Option (ℕ → Memory → Memory)) : KmemCache where
  flags := flags
  size := 0
  objsize := size
  offset := 0
  oo := 0
  max := 0
  min := 0
  allocflags := (false, false, false)
  ctor := ctor
  inuse := 0
  align := align

/-- `struct page`, as far as a new slab goes, with the address of its memory. -/
structure SlabPage where
  /-- The address of the memory. -/
  start : ℕ
  /-- `compound_order`. -/
  order : ℕ
  /-- `objects`. -/
  objects : ℕ
  /-- `inuse`. -/
  inuse : ℕ
  /-- `freelist`. -/
  freelist : ℕ

/-- `allocate_slab`, given the answers of `alloc_slab_page` for `oo` and for `min`: the address of
the memory of a block and its `compound_order`. -/
def allocateSlab (s : KmemCache) (first second : Option (ℕ × ℕ)) : Option SlabPage :=
  match first with
  | some page => some ⟨page.1, page.2, wrap 16 (ooObjects s.oo), 0, 0⟩
  | none => second.map fun page => ⟨page.1, page.2, wrap 16 (ooObjects s.min), 0, 0⟩

/-- `set_freepointer`. -/
def setFreepointer (s : KmemCache) (m : Memory) (object fp : ℕ) : Memory :=
  store m (object + toUnsigned 64 s.offset) 8 fp

/-- `setup_object`. -/
def setupObject (s : KmemCache) (m : Memory) (object : ℕ) : Memory :=
  match s.ctor with
  | none => m
  | some ctor => ctor object m

/-- The loop of `new_slab` over the objects: the memory and the last object. -/
def linkObjects (s : KmemCache) (stop : ℕ) : ℕ → Memory → ℕ → ℕ → Memory × ℕ
  | 0, m, last, _ => (m, last)
  | fuel + 1, m, last, p =>
    if p < stop then
      linkObjects s stop fuel (setFreepointer s (setupObject s m last) last p) p
        (p + toUnsigned 64 s.size)
    else (m, last)

/-- `new_slab`: the page and the memory. -/
def newSlab (s : KmemCache) (m : Memory) (first second : Option (ℕ × ℕ)) :
    Option (SlabPage × Memory) :=
  (allocateSlab s first second).map fun page =>
    let m :=
      if s.flags &&& slabPoison ≠ 0 then
        fun b =>
          if page.start ≤ b ∧ b < page.start + pageSize <<< page.order then poisonInuse else m b
      else m
    let stop := page.start + toUnsigned 64 (toSigned 32 (page.objects * s.size))
    let linked := linkObjects s stop page.objects m page.start page.start
    ({ page with freelist := page.start, inuse := 0 },
      setFreepointer s (setupObject s linked.1 linked.2) linked.2 0)

end BiscuitOS.SlubLayout
