import BiscuitOS.MachineWord
import BiscuitOS.WordBitmap
import BiscuitOS.LoopRun

/-!
# The boot memory allocator

`mm/bootmem.c` over the bit operations of `lib/bitmap.c`. A node keeps one bit
for each of its pages in 32-bit words; `unsigned long` is 64 bits wide, `int`
and `phys_addr_t` are 32. `BUG` and `BUG_ON` only print. The zeroing of
allocated memory, the leak tracer and the traces are not modelled.
-/

namespace BiscuitOS.BootmemModel

open MachineWord WordBitmap LoopRun

/-- `PFN_UP`. -/
def pfnUp (x : ℕ) : ℕ := wrap 64 (x + 4095) / 4096

/-- `PFN_DOWN`. -/
def pfnDown (x : ℕ) : ℕ := x / 4096

/-- `PFN_PHYS`, in the 32 bits of `phys_addr_t`. -/
def pfnPhys (x : ℕ) : ℕ := wrap 32 (x * 4096)

/-- `PAGE_ALIGN`, which clears the offset with the 32-bit mask of `PAGE_SIZE`. -/
def pageAlign (x : ℕ) : ℕ := (BitVec.ofNat 64 x &&& BitVec.ofNat 64 0xFFFFF000).toNat

/-- `PHYS_OFFSET`. -/
def physOffset : ℕ := 0x50000000

/-- `PAGE_OFFSET`. -/
def pageOffset : ℕ := 0xC0000000

/-- `BOOTMEM_DEFAULT`. -/
def bootmemDefault : ℕ := 0

/-- `BOOTMEM_EXCLUSIVE`. -/
def bootmemExclusive : ℕ := 1

/-- `EBUSY`. -/
def ebusy : ℤ := 16

/-- Page frames of the 32-bit physical address space. -/
def maxPfn : ℕ := 2 ^ 20

/-- The bitmap words behind `node_bootmem_map`. -/
abbrev Bitmap := Words 32

/-- `struct bootmem_data`; the list through `list` is kept by the list of nodes itself. -/
structure BootmemData where
  /-- `node_min_pfn`. -/
  nodeMinPfn : ℕ
  /-- `node_low_pfn`. -/
  nodeLowPfn : ℕ
  /-- The address in `node_bootmem_map`; zero for NULL. -/
  mapAddr : ℕ
  /-- The words at `node_bootmem_map`. -/
  nodeBootmemMap : Bitmap
  /-- `last_end_off`. -/
  lastEndOff : ℕ
  /-- `hint_idx`. -/
  hintIdx : ℕ
  /-- Pages have physical addresses. -/
  lowPfn_le : nodeLowPfn ≤ maxPfn
  /-- The first page is a page frame number as well. -/
  minPfn_le : nodeMinPfn ≤ maxPfn

/-- `test_and_set_bit`. -/
def testAndSetBit (nr : ℕ) (byte : Bitmap) : ℤ × Bitmap :=
  let mask := 1#32 <<< (nr % 32)
  if byte (nr / 32) &&& mask ≠ 0#32 then (1, byte)
  else (0, Function.update byte (nr / 32) (byte (nr / 32) ||| mask))

/-- `test_and_clear_bit`. -/
def testAndClearBit (nr : ℕ) (byte : Bitmap) : ℤ × Bitmap :=
  let mask := ~~~(1#32 <<< (nr % 32))
  let cleared := Function.update byte (nr / 32) (byte (nr / 32) &&& mask)
  if byte (nr / 32) &&& ~~~mask ≠ 0#32 then (1, cleared) else (0, cleared)

/-- `test_bit`. -/
def testBit (nr : ℕ) (byte : Bitmap) : ℤ :=
  if 1#32 <<< (nr % 32) &&& byte (nr / 32) ≠ 0#32 then 1 else 0

/-- The scan of one word of `find_next_zero_bit`, from place `j` on with the places left. -/
def zeroInWord (mask : BitVec 32) (j : ℕ) : ℕ → Option ℕ
  | 0 => none
  | left + 1 => if mask >>> j &&& 1#32 = 0#32 then some j else zeroInWord mask (j + 1) left

/-- The scan over the words of `find_next_zero_bit`, from word `n + i` on with the words left.
`m` is the place at which the first word was entered. -/
def zeroFrom (byte : Bitmap) (n m i offset : ℕ) : ℕ → ℤ
  | 0 => -1
  | left + 1 =>
    match zeroInWord (byte (n + i) >>> offset) 0 (32 - offset) with
    | some j => m + i * 32 + j + n * 32
    | none => zeroFrom byte n m (i + 1) 0 left

/-- `find_next_zero_bit`. -/
def findNextZeroBit (byte : Bitmap) (size offset : ℕ) : ℤ :=
  zeroFrom byte (offset / 32) (offset % 32) 0 (offset % 32) (size / 32 + 1)

/-- The clearing loop of `__free` from index `idx`, with the indices left. -/
def freeLoop (map : Bitmap) (idx : ℕ) : ℕ → Bitmap
  | 0 => map
  | left + 1 => freeLoop (testAndClearBit idx map).2 (idx + 1) left

/-- `__free`. -/
def free (bdata : BootmemData) (sidx eidx : ℕ) : BootmemData :=
  { bdata with
    hintIdx := if bdata.hintIdx > sidx then sidx else bdata.hintIdx
    nodeBootmemMap := freeLoop bdata.nodeBootmemMap sidx (eidx - sidx) }

/-- The setting loop of `__reserve` from index `idx`, with the indices left; also the index
of the first double reservation when reserving exclusively. -/
def reserveLoop (exclusive : Bool) (map : Bitmap) (idx : ℕ) : ℕ → Option ℕ × Bitmap
  | 0 => (none, map)
  | left + 1 =>
    let r := testAndSetBit idx map
    if r.1 ≠ 0 ∧ exclusive then (some idx, r.2)
    else reserveLoop exclusive r.2 (idx + 1) left

/-- `__reserve`. -/
def reserve (bdata : BootmemData) (sidx eidx flags : ℕ) : ℤ × BootmemData :=
  match reserveLoop (flags &&& bootmemExclusive ≠ 0) bdata.nodeBootmemMap sidx (eidx - sidx) with
  | (some idx, map) => (-ebusy, free { bdata with nodeBootmemMap := map } sidx idx)
  | (none, map) => (0, { bdata with nodeBootmemMap := map })

/-- `mark_bootmem_node`. -/
def markBootmemNode (bdata : BootmemData) (start fin : ℕ) (reserving : Bool) (flags : ℕ) :
    ℤ × BootmemData :=
  let sidx := wrapSub 64 start bdata.nodeMinPfn
  let eidx := wrapSub 64 fin bdata.nodeMinPfn
  if reserving then reserve bdata sidx eidx flags else (0, free bdata sidx eidx)

/-- The walk of `mark_bootmem` over the node list: the nodes passed and those ahead. `undo` is
the recursive call after an error. Falling off the list is a `BUG` without a return value. -/
def markLoop (undo : List BootmemData → ℕ → List BootmemData) (fin : ℕ) (reserving : Bool)
    (flags : ℕ) (passed : List BootmemData) :
    List BootmemData → ℕ → Option ℤ × List BootmemData
  | [], _ => (none, passed)
  | bdata :: ahead, pos =>
    if pos < bdata.nodeMinPfn ∨ pos ≥ bdata.nodeLowPfn then
      markLoop undo fin reserving flags (passed ++ [bdata]) ahead pos
    else
      let max := min bdata.nodeLowPfn fin
      let r := markBootmemNode bdata pos max reserving flags
      if reserving ∧ r.1 ≠ 0 then (some r.1, undo (passed ++ r.2 :: ahead) pos)
      else if max = fin then (some 0, passed ++ r.2 :: ahead)
      else markLoop undo fin reserving flags (passed ++ [r.2]) ahead bdata.nodeLowPfn

/-- `mark_bootmem(start, pos, 0, 0)`, which meets no error. -/
def unmark (start : ℕ) (nodes : List BootmemData) (pos : ℕ) : List BootmemData :=
  (markLoop (fun ns _ => ns) pos false 0 [] nodes start).2

/-- `mark_bootmem`. -/
def markBootmem (nodes : List BootmemData) (start fin : ℕ) (reserving : Bool) (flags : ℕ) :
    Option ℤ × List BootmemData :=
  markLoop (unmark start) fin reserving flags [] nodes start

/-- `free_bootmem`. -/
def freeBootmem (nodes : List BootmemData) (addr size : ℕ) : List BootmemData :=
  (markBootmem nodes (pfnUp addr) (pfnDown (wrap 64 (addr + size))) false 0).2

/-- `reserve_bootmem`. -/
def reserveBootmem (nodes : List BootmemData) (addr size flags : ℕ) :
    Option ℤ × List BootmemData :=
  markBootmem nodes (pfnDown addr) (pfnUp (wrap 64 (addr + size))) true flags

/-- `bootmap_bytes`. -/
def bootmapBytes (pages : ℕ) : ℕ := alignUp 64 (wrap 64 (pages + 7) / 8) 8

/-- `bootmem_bootmap_pages`. -/
def bootmemBootmapPages (pages : ℕ) : ℕ := pageAlign (bootmapBytes pages) / 4096

/-- `link_bootmem`: before the first node with a larger first page. -/
def linkBootmem (bdata : BootmemData) : List BootmemData → List BootmemData
  | [] => [bdata]
  | ent :: rest =>
    if bdata.nodeMinPfn < ent.nodeMinPfn then bdata :: ent :: rest
    else ent :: linkBootmem bdata rest

/-- The node list after registering the nodes in this order. -/
def bdataList (registered : List BootmemData) : List BootmemData :=
  registered.foldl (fun nodes bdata => linkBootmem bdata nodes) []

/-- `init_bootmem_core` on a node at `mapAddr`, without the linking: all pages reserved. The
words behind the bitmap keep what memory holds there. -/
def initBootmemCore (bdata : BootmemData) (memory : Bitmap) (mapAddr start fin : ℕ)
    (hs : start ≤ maxPfn) (hf : fin ≤ maxPfn) : ℕ × BootmemData :=
  let mapsize := bootmapBytes (wrapSub 64 fin start)
  (mapsize,
    { bdata with
      mapAddr := mapAddr
      nodeMinPfn := start
      nodeLowPfn := fin
      nodeBootmemMap := fun i => if i < mapsize / 4 then BitVec.allOnes 32 else memory i
      lowPfn_le := hf
      minPfn_le := hs })

/-- `align_idx`. -/
def alignIdx (bdata : BootmemData) (idx step : ℕ) : ℕ :=
  wrapSub 64 (alignUp 64 (bdata.nodeMinPfn + idx) step) bdata.nodeMinPfn

/-- `align_off`. -/
def alignOff (bdata : BootmemData) (off align : ℕ) : ℕ :=
  wrapSub 64 (alignUp 64 (pfnPhys bdata.nodeMinPfn + off) align) (pfnPhys bdata.nodeMinPfn)

/-- `max` in `alloc_bootmem_core`: the node's end, lowered to the limit. -/
def allocMax (bdata : BootmemData) (limit : ℕ) : ℕ :=
  let limit := limit / 4096
  if limit ≠ 0 ∧ bdata.nodeLowPfn > limit then limit else bdata.nodeLowPfn

/-- `step` in `alloc_bootmem_core`. -/
def allocStep (align : ℕ) : ℕ := max (align / 4096) 1

/-- `start` in `alloc_bootmem_core`. -/
def allocStart (bdata : BootmemData) (align goal limit : ℕ) : ℕ :=
  let goal := goal / 4096
  if goal ≠ 0 ∧ bdata.nodeMinPfn < goal ∧ goal < allocMax bdata limit then
    alignUp 64 goal (allocStep align)
  else alignUp 64 bdata.nodeMinPfn (allocStep align)

/-- The variables of `alloc_bootmem_core` that its search loop changes. -/
structure Search where
  /-- `sidx`. -/
  sidx : ℕ
  /-- `fallback`. -/
  fallback : ℕ
  deriving DecidableEq

/-- The first index from `i` on that is set, with the indices left. -/
def firstSet (map : Bitmap) (i : ℕ) : ℕ → Option ℕ
  | 0 => none
  | left + 1 => if testBit i map ≠ 0 then some i else firstSet map (i + 1) left

/-- The index at which one round of the search looks: the next zero bit, aligned. -/
def candidate (bdata : BootmemData) (midx step sidx : ℕ) : ℕ :=
  alignIdx bdata (toUnsigned 64 (findNextZeroBit bdata.nodeBootmemMap midx sidx)) step

/-- One round from `find_block` on: back to `find_block`, or out with the index found. -/
def findBlock (bdata : BootmemData) (midx step pages : ℕ) (s : Search) : Search ⊕ Option ℕ :=
  let sidx := candidate bdata midx step s.sidx
  let eidx := wrap 64 (sidx + pages)
  if sidx ≥ midx ∨ eidx > midx then
    if s.fallback ≠ 0 then .inl ⟨alignIdx bdata (s.fallback - 1) step, 0⟩ else .inr none
  else
    match firstSet bdata.nodeBootmemMap sidx (eidx - sidx) with
    | some i =>
      let next := alignIdx bdata i step
      .inl ⟨if next = i then wrap 64 (next + step) else next, s.fallback⟩
    | none => .inr (some sidx)

/-- `sidx` and `fallback` when the search starts. -/
def searchFrom (bdata : BootmemData) (sidx step : ℕ) : Search :=
  if bdata.hintIdx > sidx then ⟨alignIdx bdata bdata.hintIdx step, wrap 64 (sidx + 1)⟩
  else ⟨sidx, 0⟩

/-- The end of `alloc_bootmem_core` once a block is found: merge with the last page, reserve,
and give the address of the region. -/
def takeBlock (bdata : BootmemData) (sidx size align : ℕ) : ℕ × BootmemData :=
  let startOff :=
    if bdata.lastEndOff % 4096 ≠ 0 ∧ pfnDown bdata.lastEndOff + 1 = sidx then
      alignOff bdata bdata.lastEndOff align
    else pfnPhys sidx
  let merge := if pfnDown startOff < sidx then 1 else 0
  let endOff := wrap 64 (startOff + size)
  let marked := { bdata with lastEndOff := endOff, hintIdx := pfnUp endOff }
  let reserved := reserve marked (pfnDown startOff + merge) (pfnUp endOff) bootmemExclusive
  (wrap 64 (wrapSub 64 (pfnPhys bdata.nodeMinPfn + startOff) physOffset + pageOffset), reserved.2)

/-- `alloc_bootmem_core`: the region or NULL, and the node; nothing while the search still
runs when the fuel is spent. -/
def allocBootmemCore (bdata : BootmemData) (size align goal limit fuel : ℕ) :
    Option (Option ℕ × BootmemData) :=
  if bdata.mapAddr = 0 then some (none, bdata)
  else if allocMax bdata limit ≤ bdata.nodeMinPfn then some (none, bdata)
  else
    let step := allocStep align
    let sidx := wrapSub 64 (allocStart bdata align goal limit) bdata.nodeMinPfn
    let midx := wrapSub 64 (allocMax bdata limit) bdata.nodeMinPfn
    (loop (findBlock bdata midx step (pfnUp size)) fuel (searchFrom bdata sidx step)).map
      fun found =>
        match found with
        | none => (none, bdata)
        | some sidx =>
          let taken := takeBlock bdata sidx size align
          (some taken.1, taken.2)

end BiscuitOS.BootmemModel
