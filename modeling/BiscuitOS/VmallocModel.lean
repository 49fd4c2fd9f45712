import BiscuitOS.PcpuVmModel

/-!
# Virtually contiguous memory

`__vmalloc_node_range`, `vfree` and what they use in `mm/vmalloc.c`, with the
page tables of the kernel. An entry of a page table holds the page that it
maps. A table covers two megabytes, the levels above it are folded. An array
of pages in the range for areas is read and written through the page tables,
and an access to an address that is not mapped does not return.
-/

namespace BiscuitOS.VmallocModel

open MachineWord VmapModel PcpuVmModel

/-- `PAGE_ALIGN`: the mask has 32 bits. -/
def pageAlign (x : ℕ) : ℕ := (BitVec.ofNat 64 x &&& BitVec.zeroExtend 64 (~~~(BitVec.ofNat 32 pageSize - 1#32))).toNat

/-- `PGDIR_SIZE`. -/
def pgdirSize : ℕ := 2 ^ 21

/-- `VM_IOREMAP`. -/
def vmIoremap : ℕ := 1

/-- `VM_VPAGES`. -/
def vmVpages : ℕ := 16

/-- `PAGE_SHIFT`. -/
def pageShift : ℕ := 12

/-- `IOREMAP_MAX_ORDER`. -/
def ioremapMaxOrder : ℕ := 7 + pageShift

/-- What the allocators below give out. -/
inductive Block
  /-- A page. -/
  | page (page : ℕ)
  /-- An array of pages from `kmalloc`. -/
  | array (array : ℕ)
  /-- A `struct vm_struct`. -/
  | vm (vm : ℕ)
  deriving DecidableEq

/-- What happened, for the statements only: no function reads it. -/
inductive Event
  /-- A block was taken. -/
  | took (block : Block)
  /-- A block was given back. -/
  | gave (block : Block)
  /-- An area was placed at an address. -/
  | placed (addr : ℕ)
  /-- The area at an address was removed, which had been `freed` before or not. -/
  | removed (addr : ℕ) (freed : Bool)
  deriving DecidableEq

/-- The areas, the page tables and the arrays of pages. -/
structure VmallocState where
  /-- The areas and `vmlist`. -/
  vm : VmState
  /-- The pages mapped, by the number of the page of the address. -/
  ptes : ℕ → Option ℕ
  /-- The page tables present, by the number of the entry that points to them. -/
  tables : ℕ → Bool
  /-- The arrays of pages, by address and index. -/
  arrays : ℕ → ℕ → ℕ
  /-- `totalram_pages`. -/
  totalramPages : ℕ
  /-- What happened, latest first. -/
  log : List Event

/-- Note what happened. -/
def VmallocState.note (s : VmallocState) (event : Event) : VmallocState :=
  { s with log := event :: s.log }

/-- Store an entry of a page table. -/
def setPte (s : VmallocState) (addr : ℕ) (pte : Option ℕ) : VmallocState :=
  { s with ptes := Function.update s.ptes (addr / pageSize) pte }

/-- `pgd_addr_end` and `pmd_addr_end`. -/
def pgdAddrEnd (addr stop : ℕ) : ℕ :=
  let boundary := alignDown 64 (addr + pgdirSize) pgdirSize
  if wrapSub 64 boundary 1 < wrapSub 64 stop 1 then boundary else stop

/-- `vunmap_pte_range` on a number of pages. -/
def vunmapPteRange (s : VmallocState) (addr : ℕ) : ℕ → VmallocState
  | 0 => s
  | n + 1 => vunmapPteRange (setPte s addr none) (addr + pageSize) n

/-- `vunmap_page_range`, with fuel for its loop. -/
def vunmapPageRange (s : VmallocState) (addr stop : ℕ) : ℕ → Option VmallocState
  | 0 => none
  | fuel + 1 =>
    let next := pgdAddrEnd addr stop
    let s := if s.tables (addr / pgdirSize) then vunmapPteRange s addr ((next - addr) / pageSize) else s
    if next = stop then some s else vunmapPageRange s next stop fuel

/-- Fuel for the loops over the entries between two addresses. -/
def rangeFuel (addr stop : ℕ) : ℕ := (stop - addr) / pageSize + 1

/-- An access to an array of pages, which faults when its address is not mapped. -/
def mappedAt (s : VmallocState) (pages i : ℕ) : Bool :=
  if s.vm.vmap.vmallocStart ≤ pages ∧ pages < vmallocEnd then
    (s.ptes ((pages + 8 * i) / pageSize)).isSome
  else true

/-- Read an array of pages. -/
def readPage (s : VmallocState) (pages i : ℕ) : Option ℕ :=
  if mappedAt s pages i then some (s.arrays pages i) else none

/-- Write an array of pages. -/
def writePage (s : VmallocState) (pages i page : ℕ) : Option VmallocState :=
  if mappedAt s pages i then
    some { s with arrays := Function.update s.arrays pages (Function.update (s.arrays pages) i page) }
  else none

/-- `pte_alloc_kernel`, given whether there is a page for a table: the table is cleared. -/
def pteAllocKernel (s : VmallocState) (addr : ℕ) (answer : Bool) : Option VmallocState :=
  if s.tables (addr / pgdirSize) then some s
  else if answer then
    some { s with
      tables := Function.update s.tables (addr / pgdirSize) true
      ptes := fun n => if n * pageSize / pgdirSize = addr / pgdirSize then none else s.ptes n }
  else none

/-- The loop of `vmap_pte_range` on a number of pages, which tells whether it went through. -/
def vmapPteRange (s : VmallocState) (pages addr nr : ℕ) : ℕ → Option (Bool × VmallocState)
  | 0 => some (true, s)
  | n + 1 =>
    (readPage s pages nr).bind fun page =>
      if (s.ptes (addr / pageSize)).isSome then some (false, s)
      else if page = 0 then some (false, s)
      else vmapPteRange (setPte s addr page) pages (addr + pageSize) (nr + 1) n

/-- `vmap_page_range_noflush`, with fuel for its loop and the answers for page tables. -/
def vmapPageRangeNoflush (s : VmallocState) (table : ℕ → Bool) (pages addr stop nr : ℕ) :
    ℕ → Option (Bool × VmallocState)
  | 0 => none
  | fuel + 1 =>
    let next := pgdAddrEnd addr stop
    match pteAllocKernel s addr (table (addr / pgdirSize)) with
    | none => some (false, s)
    | some s =>
      (vmapPteRange s pages addr nr ((next - addr) / pageSize)).bind fun r =>
        if r.1 = false then some r
        else if next = stop then some r
        else vmapPageRangeNoflush r.2 table pages next stop (nr + (next - addr) / pageSize) fuel

/-- `map_vm_area`. -/
def mapVmArea (s : VmallocState) (table : ℕ → Bool) (area pages : ℕ) : Option (Bool × VmallocState) :=
  let addr := (s.vm.vms area).addr
  let stop := wrapSub 64 (addr + (s.vm.vms area).size) pageSize
  vmapPageRangeNoflush s table pages addr stop 0 (rangeFuel addr stop)

/-- `fls`. -/
def fls (x : ℕ) : ℕ := Nat.size (wrap 32 x)

/-- The alignment of `__get_vm_area_node`. -/
def areaAlign (size align flags : ℕ) : ℕ :=
  if flags &&& vmIoremap ≠ 0 then
    let bit := fls size
    2 ^ (if ioremapMaxOrder < bit then ioremapMaxOrder else if bit < pageShift then pageShift else bit)
  else align

/-- Store a descriptor. -/
def setVm (s : VmallocState) (area : ℕ) (vm : VmStruct) : VmallocState :=
  { s with vm := { s.vm with vms := Function.update s.vm.vms area vm } }

/-- `__get_vm_area_node`, given the answers for the descriptor and the area. Without memory for the
area, `alloc_vmap_area` returns `NULL`, which `IS_ERR` does not catch, and `insert_vmalloc_vm` follows
it. -/
def getVmAreaNode (s : VmallocState) (size align flags start stop : ℕ) (vm va : Option ℕ) :
    Option (Option ℕ × VmallocState) :=
  let align := areaAlign size align flags
  let size := pageAlign size
  if size = 0 then some (none, s)
  else
    match vm with
    | none => some (none, s)
    | some area =>
      let s := setVm (s.note (.took (.vm area))) area ⟨0, 0, 0, 0, 0⟩
      (allocVmapArea s.vm.vmap (size + pageSize) align start stop va).bind fun r =>
        match r.1 with
        | none => none
        | some va =>
          let s := { s with vm := insertVmallocVm { s.vm with vmap := r.2 } area va flags }
          some (some area, s.note (.placed (s.vm.vms area).addr))

/-- `find_vm_area`: zero for none. -/
def findVmArea (s : VmallocState) (addr : ℕ) : Option ℕ :=
  (findVmapArea s.vm.vmap addr).map fun va =>
    if va ≠ 0 ∧ (s.vm.vmap.areas va).vmArea then (s.vm.vmap.areas va).private_ else 0

/-- The loop of `remove_vm_area` over `vmlist`, which does not end for a descriptor that is not in
the list. -/
def unlinkVm (vm : ℕ) (vmlist : List ℕ) : Option (List ℕ) :=
  if vm ∈ vmlist then some (vmlist.erase vm) else none

/-- Whether an area was freed and not purged. -/
def wasFreed (area : VmapArea) : Bool := area.lazyFree || area.lazyFreeing

/-- `remove_vm_area`: the descriptor, none for `NULL`. -/
def removeVmArea (s : VmallocState) (addr : ℕ) : Option (Option ℕ × VmallocState) :=
  (findVmapArea s.vm.vmap addr).bind fun va =>
    let area := s.vm.vmap.areas va
    if va ≠ 0 ∧ area.vmArea then
      (unlinkVm area.private_ s.vm.vmlist).bind fun vmlist =>
      (vunmapPageRange s area.vaStart area.vaEnd (rangeFuel area.vaStart area.vaEnd)).bind fun s =>
      (freeVmapAreaNoflush s.vm.vmap va).map fun vmap =>
        let vm := s.vm.vms area.private_
        let s := { s with vm := { s.vm with vmap := vmap, vmlist := vmlist } }
        let s := setVm s area.private_ { vm with size := wrapSub 64 vm.size pageSize }
        (some area.private_, s.note (.removed addr (wasFreed area)))
    else some (none, s)

/-- The loop of `__vunmap` that frees the pages, from `i` on. -/
def freePages (s : VmallocState) (pages i : ℕ) : ℕ → Option VmallocState
  | 0 => some s
  | n + 1 =>
    (readPage s pages i).bind fun page => freePages (s.note (.gave (.page page))) pages (i + 1) n

/-- `vfree` and `__vunmap`, with fuel for arrays of pages that are freed in turn. -/
def vfree (s : VmallocState) (addr : ℕ) : ℕ → Option VmallocState
  | 0 => none
  | fuel + 1 =>
    if addr = 0 then some s
    else if addr % pageSize ≠ 0 then some s
    else
      (removeVmArea s addr).bind fun r =>
        match r.1 with
        | none => some r.2
        | some area =>
          let vm := r.2.vm.vms area
          (freePages r.2 vm.pages 0 vm.nrPages).bind fun s =>
          (if vm.flags &&& vmVpages ≠ 0 then vfree s vm.pages fuel
            else some (s.note (.gave (.array vm.pages)))).map fun s => s.note (.gave (.vm area))

/-- The answers of the allocators in one call. -/
structure Answers where
  /-- The descriptor. -/
  vm : Option ℕ
  /-- The area. -/
  va : Option ℕ
  /-- The array of pages from `kmalloc`. -/
  array : Option ℕ
  /-- The pages. -/
  page : ℕ → Option ℕ
  /-- The page tables. -/
  table : ℕ → Bool

/-- The loop of `__vmalloc_area_node` that takes the pages, from `i` on: whether all are there. -/
def allocPages (s : VmallocState) (answers : Answers) (area i : ℕ) : ℕ → Option (Bool × VmallocState)
  | 0 => some (true, s)
  | n + 1 =>
    match answers.page i with
    | none => some (false, setVm s area { s.vm.vms area with nrPages := i })
    | some page =>
      (writePage (s.note (.took (.page page))) (s.vm.vms area).pages i page).bind fun s =>
        allocPages s answers area (i + 1) n

/-- `__vmalloc_area_node`, given what it calls for a large array of pages. -/
def vmallocAreaNode (s : VmallocState) (answers : Answers) (area : ℕ)
    (nested : VmallocState → ℕ → Option (Option ℕ × VmallocState)) (fuel : ℕ) :
    Option (Option ℕ × VmallocState) :=
  let addr := (s.vm.vms area).addr
  let nrPages := wrap 32 (wrapSub 64 (s.vm.vms area).size pageSize / pageSize)
  let arraySize := wrap 32 (nrPages * 8)
  let s := setVm s area { s.vm.vms area with nrPages := nrPages }
  let taken :=
    if pageSize < arraySize then
      (nested s arraySize).map fun r =>
        (r.1, setVm r.2 area { r.2.vm.vms area with flags := (r.2.vm.vms area).flags ||| vmVpages })
    else
      match answers.array with
      | none => some (none, s)
      | some array =>
        some (some array, { s.note (.took (.array array)) with
          arrays := Function.update s.arrays array fun _ => 0 })
  taken.bind fun r =>
    match r.1 with
    | none =>
      let s := setVm r.2 area { r.2.vm.vms area with pages := 0 }
      (removeVmArea s addr).map fun r => (none, r.2.note (.gave (.vm area)))
    | some pages =>
      let s := setVm r.2 area { r.2.vm.vms area with pages := pages }
      (allocPages s answers area 0 nrPages).bind fun r =>
        if r.1 = false then (vfree r.2 addr fuel).map fun s => (none, s)
        else
          (mapVmArea r.2 answers.table area pages).bind fun r =>
            if r.1 = false then (vfree r.2 addr fuel).map fun s => (none, s)
            else some (some addr, r.2)

/-- `__vmalloc_node_range`, given the answers of each call by its depth, with fuel for the depth: the
address, none for `NULL`. -/
def vmallocNodeRange (s : VmallocState) (answers : ℕ → Answers) (size align start stop depth : ℕ) :
    ℕ → Option (Option ℕ × VmallocState)
  | 0 => none
  | fuel + 1 =>
    let size := pageAlign size
    if size = 0 ∨ s.totalramPages < size / pageSize then some (none, s)
    else
      (getVmAreaNode s size align vmAlloc start stop (answers depth).vm (answers depth).va).bind fun r =>
        match r.1 with
        | none => some (none, r.2)
        | some area =>
          vmallocAreaNode r.2 (answers depth) area
            (fun s size =>
              vmallocNodeRange s answers size 1 s.vm.vmap.vmallocStart vmallocEnd (depth + 1) fuel)
            (fuel + 1)

/-- `vmalloc`. -/
def vmalloc (s : VmallocState) (answers : ℕ → Answers) (size fuel : ℕ) :
    Option (Option ℕ × VmallocState) :=
  vmallocNodeRange s answers size 1 s.vm.vmap.vmallocStart vmallocEnd 0 fuel

end BiscuitOS.VmallocModel
