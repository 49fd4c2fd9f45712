import BiscuitOS.MachineWord
import BiscuitOS.RbtreeModel

/-!
# Areas of the kernel's virtual addresses

The allocator of areas in `mm/vmalloc.c`. An area is found by the address of
its node in the tree, and `vmap_area_list` is the list of these addresses.
Words have 64 bits. `stop` and `BUG` in an endless loop do not return, and
neither does `__purge_vmap_area_lazy` with `sync`, which follows a pointer to
a queue of blocks that is never assigned. Each loop has fuel for one round
more than there are areas.
-/

namespace BiscuitOS.VmapModel

open MachineWord ColorTree RbtreeModel

/-- `PAGE_SIZE`. -/
def pageSize : ℕ := 4096

/-- `VMALLOC_END`. -/
def vmallocEnd : ℕ := 0xC0000000 + 0x10000000 * 2 + 0x800000

/-- `struct vmap_area`, with its flags one by one. -/
structure VmapArea where
  /-- `va_start`. -/
  vaStart : ℕ
  /-- `va_end`. -/
  vaEnd : ℕ
  /-- `VM_LAZY_FREE` in `flags`. -/
  lazyFree : Bool
  /-- `VM_LAZY_FREEING` in `flags`. -/
  lazyFreeing : Bool
  /-- `VM_VM_AREA` in `flags`. -/
  vmArea : Bool
  /-- `private`. -/
  private_ : ℕ
  deriving DecidableEq

/-- The variables of the allocator. -/
structure VmapState where
  /-- `vmap_area_root` and the nodes of the areas. -/
  root : RbTree
  /-- The areas, by address. -/
  areas : ℕ → VmapArea
  /-- `vmap_area_list`. -/
  areaList : List ℕ
  /-- `vmap_lazy_nr`. -/
  lazyNr : ℤ
  /-- `vmap_area_pcpu_hole`. -/
  pcpuHole : ℕ
  /-- `VMALLOC_START`, which depends on `high_memory`. -/
  vmallocStart : ℕ

/-- The fuel of the loops. -/
def VmapState.fuel (s : VmapState) : ℕ := s.areaList.length + 2

/-- Store an area. -/
def setArea (s : VmapState) (va : ℕ) (area : VmapArea) : VmapState :=
  { s with areas := Function.update s.areas va area }

/-- `list_add_rcu` behind `prev`. -/
def insertAfter (prev va : ℕ) : List ℕ → List ℕ
  | [] => []
  | a :: l => if a = prev then a :: va :: l else a :: insertAfter prev va l

/-- A round of the loop of `__insert_vmap_area`, which keeps the parent and the link. -/
def visitInsert (s : VmapState) (va : ℕ) (_ : ℕ × RbLink) (n : ℕ) :
    Option ((ℕ × RbLink) × Option Side) :=
  if (s.areas va).vaStart < (s.areas n).vaEnd then some ((n, .child n .left), some .left)
  else if (s.areas n).vaStart < (s.areas va).vaEnd then some ((n, .child n .right), some .right)
  else none

/-- `__insert_vmap_area`. -/
def insertVmapArea (s : VmapState) (va : ℕ) : Option VmapState :=
  (walk s.root (visitInsert s va) (0, .root) s.root.rbNode s.fuel).bind fun p =>
  (rbInsertColor (rbLinkNode s.root va p.1 p.2) va s.fuel).bind fun root =>
  (rbPrev root va s.fuel).map fun tmp =>
    { s with
      root := root
      areaList := if tmp ≠ 0 then insertAfter tmp va s.areaList else va :: s.areaList }

/-- A round of the first loop of `alloc_vmap_area`, which keeps `first`. -/
def visitFirst (s : VmapState) (addr size : ℕ) (first n : ℕ) : Option (ℕ × Option Side) :=
  if addr ≤ (s.areas n).vaEnd then
    some (if first = 0 ∧ (s.areas n).vaStart < wrap 64 (addr + size) then n else first, some .left)
  else some (n, some .right)

/-- The second loop of `alloc_vmap_area`, with fuel: the address found, unless it overflows. -/
def skipAreas (s : VmapState) (size align vend addr first : ℕ) : ℕ → Option ℕ
  | 0 => none
  | fuel + 1 =>
    if (s.areas first).vaStart < wrap 64 (addr + size) ∧ wrap 64 (addr + size) ≤ vend then
      let addr := alignUp 64 (wrap 64 ((s.areas first).vaEnd + pageSize)) align
      if wrapSub 64 (addr + size) 1 < addr then none
      else
        (rbNext s.root first s.fuel).bind fun n =>
          if n ≠ 0 then skipAreas s size align vend addr n fuel else some addr
    else some addr

/-- The search of `alloc_vmap_area` from `retry` to `found`. -/
def searchHole (s : VmapState) (size align vstart vend : ℕ) : Option ℕ :=
  let addr := alignUp 64 vstart align
  if wrapSub 64 (addr + size) 1 < addr then none
  else if s.root.rbNode = 0 then some addr
  else
    (walk s.root (visitFirst s addr size) 0 s.root.rbNode s.fuel).bind fun first =>
    if first = 0 then some addr
    else if (s.areas first).vaEnd < addr then
      (rbNext s.root first s.fuel).bind fun n =>
        if n ≠ 0 then skipAreas s size align vend addr n s.fuel else some addr
    else skipAreas s size align vend addr first s.fuel

/-- The area that `alloc_vmap_area` fills in. -/
def placedArea (area : VmapArea) (addr va_end : ℕ) : VmapArea :=
  { area with
    vaStart := addr
    vaEnd := va_end
    lazyFree := false
    lazyFreeing := false
    vmArea := false }

/-- `alloc_vmap_area`, given the answer of the allocator of areas: the area, none when there is no
memory for it. An overflow ends in `stop`. -/
def allocVmapArea (s : VmapState) (size align vstart vend : ℕ) (answer : Option ℕ) :
    Option (Option ℕ × VmapState) :=
  match answer with
  | none => some (none, s)
  | some va =>
    (searchHole s size align vstart vend).bind fun addr =>
      if vend < wrap 64 (addr + size) then none
      else
        let area := placedArea (s.areas va) addr (wrap 64 (addr + size))
        (insertVmapArea (setArea s va area) va).map fun s => (some va, s)

/-- `lazy_max_pages`. -/
def lazyMaxPages : ℕ := 32 * 1024 * 1024 / pageSize

/-- The pages of an area. -/
def areaPages (area : VmapArea) : ℕ := wrapSub 64 area.vaEnd area.vaStart / pageSize

/-- `free_vmap_area_noflush`, which stops when too many areas are freed lazily. -/
def freeVmapAreaNoflush (s : VmapState) (va : ℕ) : Option VmapState :=
  let lazyNr := toSigned 32 (s.lazyNr + toSigned 32 (areaPages (s.areas va)))
  if lazyMaxPages < toUnsigned 64 lazyNr then none
  else some { setArea s va { s.areas va with lazyFree := true } with lazyNr := lazyNr }

/-- `__free_vmap_area`. -/
def freeVmapArea (s : VmapState) (va : ℕ) : Option VmapState :=
  (rbErase s.root va s.fuel).map fun root =>
    let area := s.areas va
    { s with
      root := store root va (rbSetParent va)
      areaList := s.areaList.erase va
      pcpuHole :=
        if s.vmallocStart < area.vaEnd ∧ area.vaEnd ≤ vmallocEnd then max s.pcpuHole area.vaEnd
        else s.pcpuHole }

/-- The areas that `__purge_vmap_area_lazy` collects. -/
def lazyAreas (s : VmapState) : List ℕ := s.areaList.filter fun va => (s.areas va).lazyFree

/-- The areas collected are marked. -/
def markFreeing (s : VmapState) : VmapState :=
  { s with
    areas := fun va =>
      if va ∈ lazyAreas s then { s.areas va with lazyFree := false, lazyFreeing := true }
      else s.areas va }

/-- `__purge_vmap_area_lazy`. -/
def purgeVmapAreaLazy (s : VmapState) (sync : Bool) : Option VmapState :=
  if sync then none
  else
    let valist := lazyAreas s
    let nr := toSigned 32 (valist.map fun va => areaPages (s.areas va)).sum
    let s := markFreeing s
    if nr = 0 then some s
    else valist.foldlM freeVmapArea { s with lazyNr := toSigned 32 (s.lazyNr - nr) }

/-- A round of the loop of `__find_vmap_area`, which keeps the area found. -/
def visitFind (s : VmapState) (addr : ℕ) (_ n : ℕ) : Option (ℕ × Option Side) :=
  if addr < (s.areas n).vaStart then some (0, some .left)
  else if (s.areas n).vaStart < addr then some (0, some .right)
  else some (n, none)

/-- `__find_vmap_area` and `find_vmap_area`: zero for none. -/
def findVmapArea (s : VmapState) (addr : ℕ) : Option ℕ :=
  walk s.root (visitFind s addr) 0 s.root.rbNode s.fuel

end BiscuitOS.VmapModel
