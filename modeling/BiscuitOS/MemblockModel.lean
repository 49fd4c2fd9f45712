import BiscuitOS.MachineWord

/-!
# The memblock region tables

The early allocator of `mm/memblock.c`: two tables of address ranges, the
top-down search for free room and the coalescing insertion. Table fields are
`unsigned long` and every parameter is a 32-bit `phys_addr_t`. `BUG_ON` and
`WARN_ON` only report. An operation yields no result where the code reads
past the end of the region array.
-/

namespace BiscuitOS.MemblockModel

open MachineWord

/-- `INIT_MEMBLOCK_REGIONS`, the capacity of the two static tables. -/
def initMemblockRegions : ℕ := 128

/-- `MEMBLOCK_ERROR`, also the end address meaning `MEMBLOCK_ALLOC_ACCESSIBLE`. -/
def memblockError : ℕ := 0

/-- `PAGE_SIZE`. -/
def pageSize : ℕ := 4096

/-- `sizeof(struct memblock_region)`: two `unsigned long` of eight bytes. -/
def sizeofRegion : ℕ := 16

/-- `struct memblock_region`. -/
structure Region where
  /-- First byte of the range. -/
  base : ℕ
  /-- Number of bytes; zero only in the dummy entry. -/
  size : ℕ
  deriving DecidableEq

/-- `struct memblock_type`, with the array its `regions` pointer refers to. -/
structure MemblockType where
  /-- Number of entries in use. -/
  cnt : ℕ
  /-- Number of entries the table may hold. -/
  max : ℕ
  /-- The array contents, stale entries at and beyond `cnt` included. -/
  regions : ℕ → Region
  /-- Number of entries of the array behind `regions`. -/
  room : ℕ
  /-- Physical address of a doubled array; none for the static one. -/
  array : Option ℕ

/-- Which of the two tables of `struct memblock` a pointer refers to. -/
inductive TableId
  | memory
  | reserved
  deriving DecidableEq

/-- `struct memblock` and the globals its functions read. -/
structure Memblock where
  /-- Limit used for `MEMBLOCK_ALLOC_ACCESSIBLE`. -/
  currentLimit : ℕ
  /-- Physical memory. -/
  memory : MemblockType
  /-- Ranges no longer available. -/
  reserved : MemblockType
  /-- `memblock_can_resize`. -/
  canResize : Bool
  /-- `slab_is_available()`. -/
  slabAvailable : Bool
  /-- Physical address of what `kmalloc(new_size,GFP_KERNEL)` answers. -/
  kmalloc : Option ℕ

/-- The table behind a pointer. -/
def Memblock.table (m : Memblock) : TableId → MemblockType
  | .memory => m.memory
  | .reserved => m.reserved

/-- Store a table back behind its pointer. -/
def Memblock.setTable (m : Memblock) : TableId → MemblockType → Memblock
  | .memory, t => { m with memory := t }
  | .reserved, t => { m with reserved := t }

@[simp] theorem Memblock.table_setTable (m : Memblock) (id : TableId) (t : MemblockType) :
    (m.setTable id t).table id = t := by
  cases id <;> rfl

@[simp] theorem Memblock.setTable_table (m : Memblock) (id : TableId) :
    m.setTable id (m.table id) = m := by
  cases id <;> rfl

@[simp] theorem Memblock.setTable_setTable (m : Memblock) (id : TableId) (t u : MemblockType) :
    (m.setTable id t).setTable id u = m.setTable id u := by
  cases id <;> rfl

/-- Assign one array entry. -/
def MemblockType.setRegion (t : MemblockType) (i : ℕ) (r : Region) : MemblockType :=
  { t with regions := Function.update t.regions i r }

@[simp] theorem MemblockType.setRegion_cnt (t : MemblockType) (i : ℕ) (r : Region) :
    (t.setRegion i r).cnt = t.cnt := rfl

/-- The assigned entry. -/
theorem MemblockType.setRegion_self (t : MemblockType) (i : ℕ) (r : Region) :
    (t.setRegion i r).regions i = r := by
  simp only [MemblockType.setRegion, Function.update_self]

/-- The other entries. -/
theorem MemblockType.setRegion_other (t : MemblockType) {i j : ℕ} (h : j ≠ i) (r : Region) :
    (t.setRegion i r).regions j = t.regions j := by
  simp only [MemblockType.setRegion, Function.update_of_ne h]

/-- A static table: zeroed entries, the marker behind the last one, the dummy first entry. -/
def staticTable : MemblockType where
  cnt := 1
  max := initMemblockRegions
  regions := Function.update (fun _ => ⟨0, 0⟩) initMemblockRegions
    ⟨wrap 32 0x09F911029D74E35B, 0⟩
  room := initMemblockRegions + 1
  array := none

/-- `memblock_init`: both tables hold the zero-size dummy entry. -/
def memblockInit : Memblock where
  currentLimit := 2 ^ 32 - 1
  memory := staticTable
  reserved := staticTable
  canResize := false
  slabAvailable := false
  kmalloc := none

/-- `memblock_align_up`. -/
def memblockAlignUp (addr size : ℕ) : ℕ := alignUp 32 addr size

/-- `memblock_align_down`. -/
def memblockAlignDown (addr size : ℕ) : ℕ := alignDown 32 addr size

/-- `memblock_addrs_overlap`. -/
def memblockAddrsOverlap (base1 size1 base2 size2 : ℕ) : Bool :=
  decide (base1 < wrap 32 (base2 + size2)) && decide (base2 < wrap 32 (base1 + size1))

/-- The scan of `memblock_overlaps_region` from index `i`, with the entries left to look at. -/
def overlapsFrom (t : MemblockType) (base size i : ℕ) : ℕ → Option ℕ
  | 0 => none
  | n + 1 =>
    if memblockAddrsOverlap (wrap 32 (t.regions i).base) (wrap 32 (t.regions i).size) base size then
      some i
    else overlapsFrom t base size (i + 1) n

/-- `memblock_overlaps_region`: the first overlapping entry, none for -1. -/
def memblockOverlapsRegion (t : MemblockType) (base size : ℕ) : Option ℕ :=
  overlapsFrom t base size 0 t.cnt

/-- The downward search of `memblock_find_region`; none only when the fuel runs out. -/
def findRegionLoop (reserved : MemblockType) (start size align : ℕ) : ℕ → ℕ → Option ℕ
  | 0, _ => none
  | n + 1, base =>
    if start ≤ base then
      match memblockOverlapsRegion reserved base size with
      | none => some base
      | some j =>
        let resBase := wrap 32 (reserved.regions j).base
        if resBase < size then some memblockError
        else findRegionLoop reserved start size align n
          (memblockAlignDown (wrapSub 32 resBase size) align)
    else some memblockError

/-- `memblock_find_region`. The candidate falls in each round, so it bounds the rounds. -/
def memblockFindRegion (m : Memblock) (start last size align : ℕ) : Option ℕ :=
  if last < size then some memblockError
  else
    let base := memblockAlignDown (wrapSub 32 last size) align
    let start := if start = 0 then pageSize else start
    findRegionLoop m.reserved start size align (base + 1) base

/-- The loop of `memblock_find_base` over the memory entries below index `i`. -/
def findBaseFrom (m : Memblock) (size align start last : ℕ) : ℕ → Option ℕ
  | 0 => some memblockError
  | i + 1 =>
    let memblockbase := wrap 32 (m.memory.regions i).base
    let memblocksize := wrap 32 (m.memory.regions i).size
    if memblocksize < size then findBaseFrom m size align start last i
    else if wrap 32 (memblockbase + memblocksize) ≤ start then some memblockError
    else
      let bottom := Nat.max memblockbase start
      let top := Nat.min (wrap 32 (memblockbase + memblocksize)) last
      if top ≤ bottom then findBaseFrom m size align start last i
      else
        match memblockFindRegion m bottom top size align with
        | none => none
        | some found =>
          if found ≠ memblockError then some found else findBaseFrom m size align start last i

/-- `memblock_find_base`. -/
def memblockFindBase (m : Memblock) (size align start last : ℕ) : Option ℕ :=
  findBaseFrom m size align start (if last = 0 then wrap 32 m.currentLimit else last) m.memory.cnt

/-- `memblock_addrs_adjacent`. -/
def memblockAddrsAdjacent (base1 size1 base2 size2 : ℕ) : ℤ :=
  if base2 = wrap 32 (base1 + size1) then 1
  else if base1 = wrap 32 (base2 + size2) then -1
  else 0

/-- `memblock_regions_adjacent`. -/
def memblockRegionsAdjacent (t : MemblockType) (r1 r2 : ℕ) : ℤ :=
  memblockAddrsAdjacent (wrap 32 (t.regions r1).base) (wrap 32 (t.regions r1).size)
    (wrap 32 (t.regions r2).base) (wrap 32 (t.regions r2).size)

/-- The shift of `memblock_remove_region` from index `i`, with the rounds left to do. -/
def shiftDown (room : ℕ) (regions : ℕ → Region) (i : ℕ) : ℕ → Option (ℕ → Region)
  | 0 => some regions
  | n + 1 =>
    if i + 1 < room then
      shiftDown room (Function.update regions i (regions (i + 1))) (i + 1) n
    else none

/-- `memblock_remove_region`; the bound `cnt - 1` is unsigned. -/
def memblockRemoveRegion (t : MemblockType) (r : ℕ) : Option MemblockType :=
  (shiftDown t.room t.regions r (wrapSub 64 t.cnt 1 - r)).map fun regions =>
    { t with regions := regions, cnt := wrapSub 64 t.cnt 1 }

/-- `memblock_coalesce_regions`. -/
def memblockCoalesceRegions (t : MemblockType) (r1 r2 : ℕ) : Option MemblockType :=
  memblockRemoveRegion
    (t.setRegion r1 ⟨(t.regions r1).base, wrap 64 ((t.regions r1).size + (t.regions r2).size)⟩) r2

/-- How the coalescing scan of `memblock_add_region` ends. -/
inductive ScanResult
  /-- The range is already an entry. -/
  | already
  /-- The scan stops at index `i` with `coalesced` entries extended. -/
  | stopped (t : MemblockType) (i coalesced : ℕ)

/-- The coalescing scan of `memblock_add_region` from index `i`, with the entries left.
`memblock_memory_can_coalesce` is constantly true, so its break is never taken. -/
def coalesceScan (t : MemblockType) (base size i : ℕ) : ℕ → ScanResult
  | 0 => .stopped t i 0
  | n + 1 =>
    let r := t.regions i
    if wrap 32 r.base = base ∧ wrap 32 r.size = size then .already
    else
      let adjacent := memblockAddrsAdjacent base size (wrap 32 r.base) (wrap 32 r.size)
      if 0 < adjacent then
        .stopped (t.setRegion i ⟨wrapSub 64 r.base size, wrap 64 (r.size + size)⟩) i 1
      else if adjacent < 0 then
        .stopped (t.setRegion i ⟨r.base, wrap 64 (r.size + size)⟩) i 1
      else coalesceScan t base size (i + 1) n

/-- The shifting insertion loop of `memblock_add_region`, downwards from index `i - 1`. -/
def insertLoop (base size : ℕ) (regions : ℕ → Region) : ℕ → ℕ → Region
  | 0 => regions
  | i + 1 =>
    if base < (regions i).base then
      insertLoop base size (Function.update regions (i + 1) (regions i)) i
    else Function.update regions (i + 1) ⟨base, size⟩

/-- The sorted insertion of `memblock_add_region`, with the repair of entry zero. -/
def insertRegion (t : MemblockType) (base size : ℕ) : MemblockType :=
  let regions := insertLoop base size t.regions t.cnt
  { t with
    regions := if base < (regions 0).base then Function.update regions 0 ⟨base, size⟩ else regions
    cnt := wrap 64 (t.cnt + 1) }

/-- `memblock_add_region`, given the function that doubles a full table. -/
def memblockAddRegionWith (doubleArray : TableId → Memblock → Option (ℤ × Memblock))
    (id : TableId) (base size : ℕ) (m : Memblock) : Option (ℤ × Memblock) :=
  let t := m.table id
  if t.cnt = 1 ∧ (t.regions 0).size = 0 then
    some (0, m.setTable id (t.setRegion 0 ⟨base, size⟩))
  else
    match coalesceScan t base size 0 t.cnt with
    | .already => some (0, m)
    | .stopped t1 i coalesced =>
      if i < wrapSub 64 t1.cnt 1 ∧ memblockRegionsAdjacent t1 i (i + 1) ≠ 0 then
        (memblockCoalesceRegions t1 i (i + 1)).map fun t2 =>
          ((coalesced : ℤ) + 1, m.setTable id t2)
      else if coalesced ≠ 0 then some (coalesced, m.setTable id t1)
      else if t1.max ≤ t1.cnt then some (-1, m.setTable id t1)
      else
        let t2 := insertRegion t1 base size
        if t2.cnt = t2.max then
          (doubleArray id (m.setTable id t2)).map fun (failed, m3) =>
            if failed ≠ 0 then
              (-1, m3.setTable id { m3.table id with cnt := wrapSub 64 (m3.table id).cnt 1 })
            else (0, m3)
        else some (0, m.setTable id t2)

/-- The search of `__memblock_remove` for the entry holding the range, from index `i`. -/
def containingFrom (t : MemblockType) (base last i : ℕ) : ℕ → Option ℕ
  | 0 => none
  | n + 1 =>
    let rgnbegin := wrap 32 (t.regions i).base
    let rgnend := wrap 32 (rgnbegin + (t.regions i).size)
    if rgnbegin ≤ base ∧ last ≤ rgnend then some i
    else containingFrom t base last (i + 1) n

/-- `__memblock_remove`, given the insertion that stores the tail of a split entry. -/
def memblockRemoveWith (addRegion : TableId → ℕ → ℕ → Memblock → Option (ℤ × Memblock))
    (id : TableId) (base size : ℕ) (m : Memblock) : Option (ℤ × Memblock) :=
  let t := m.table id
  let last := wrap 32 (base + size)
  match containingFrom t base last 0 t.cnt with
  | none => some (-1, m)
  | some i =>
    let r := t.regions i
    let rgnbegin := wrap 32 r.base
    let rgnend := wrap 32 (rgnbegin + r.size)
    if rgnbegin = base ∧ rgnend = last then
      (memblockRemoveRegion t i).map fun t1 => (0, m.setTable id t1)
    else if rgnbegin = base then
      some (0, m.setTable id (t.setRegion i ⟨last, wrapSub 64 r.size size⟩))
    else if rgnend = last then
      some (0, m.setTable id (t.setRegion i ⟨r.base, wrapSub 64 r.size size⟩))
    else
      addRegion id last (wrapSub 32 rgnend last)
        (m.setTable id (t.setRegion i ⟨r.base, wrapSub 64 base r.base⟩))

/-- The table after `memblock_double_array` moved it to an array of twice the size. -/
def doubledTable (t : MemblockType) (addr : ℕ) : MemblockType where
  cnt := t.cnt
  max := wrap 64 (t.max * 2)
  regions := fun j => if j < t.max then t.regions j else ⟨0, 0⟩
  room := t.max * 2
  array := some addr

/-- The address `memblock_double_array` finds for the new array. -/
def newArrayAddr (id : TableId) (m : Memblock) : Option ℕ :=
  if m.slabAvailable then some (m.kmalloc.getD memblockError)
  else memblockFindBase m (wrap 32 (wrap 32 ((m.table id).max * sizeofRegion) * 2)) 4 0 0

/-- `memblock_double_array`, given the operations it performs on the reserved table. The
new array is reserved under the test `use_slab`, exactly as the source writes it. -/
def memblockDoubleArrayWith (addReserved free : ℕ → ℕ → Memblock → Option (ℤ × Memblock))
    (id : TableId) (m : Memblock) : Option (ℤ × Memblock) :=
  if m.canResize = false then some (-1, m)
  else
    let t := m.table id
    let oldSize := wrap 32 (t.max * sizeofRegion)
    let newSize := wrap 32 (oldSize * 2)
    (newArrayAddr id m).bind fun addr =>
      if addr = memblockError then some (-1, m)
      else
        let m1 := m.setTable id (doubledTable t addr)
        let reservedArray :=
          if m1.slabAvailable then (addReserved addr newSize m1).map Prod.snd else some m1
        reservedArray.bind fun m2 =>
          match t.array with
          | none => some (0, m2)
          | some old => (free old oldSize m2).map fun (_, m3) => (0, m3)

/-- `memblock_double_array`; the fuel bounds how deep doublings nest. -/
def memblockDoubleArray : ℕ → TableId → Memblock → Option (ℤ × Memblock)
  | 0, _, _ => none
  | depth + 1, id, m =>
    let addRegion := memblockAddRegionWith (memblockDoubleArray depth)
    memblockDoubleArrayWith (addRegion .reserved) (memblockRemoveWith addRegion .reserved) id m

/-- `memblock_add_region`. -/
def memblockAddRegion (depth : ℕ) : TableId → ℕ → ℕ → Memblock → Option (ℤ × Memblock) :=
  memblockAddRegionWith (memblockDoubleArray depth)

/-- `__memblock_remove`. -/
def memblockRemove (depth : ℕ) : TableId → ℕ → ℕ → Memblock → Option (ℤ × Memblock) :=
  memblockRemoveWith (memblockAddRegion depth)

/-- `__memblock_alloc_base`: the address handed out, zero when there is none. -/
def memblockAllocBase (depth size align max : ℕ) (m : Memblock) : Option (ℕ × Memblock) :=
  let size := memblockAlignUp size align
  (memblockFindBase m size align 0 max).bind fun found =>
    if found ≠ memblockError then
      (memblockAddRegion depth .reserved found size m).map fun (ret, m') =>
        if 0 ≤ ret then (found, m') else (0, m')
    else some (0, m)

end BiscuitOS.MemblockModel
