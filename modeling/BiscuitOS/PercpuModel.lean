import BiscuitOS.MachineWord
import BiscuitOS.ArrayWindow

/-!
# The area map of a per-cpu chunk

`mm/percpu.c` from `pcpu_alloc_chunk` to `pcpu_free_area`. A chunk keeps its
map as an array of signed block sizes, of which the entries after `map_used`
are stale. The slot lists that order the chunks, the pages behind a chunk and
the locks are not modelled: no function here reads them.
-/

namespace BiscuitOS.PercpuModel

open MachineWord ArrayWindow

/-- `PAGE_SIZE`. -/
def pageSize : ℕ := 4096

/-- `PCPU_DFL_MAP_ALLOC`. -/
def pcpuDflMapAlloc : ℕ := 16

/-- `struct pcpu_chunk`, as far as its area map goes. -/
structure PcpuChunk where
  /-- `map_used`. -/
  mapUsed : ℕ
  /-- `map_alloc`. -/
  mapAlloc : ℕ
  /-- The entries of `map`, stale ones included. -/
  map : ℕ → ℤ
  /-- `free_size`. -/
  freeSize : ℤ
  /-- `contig_hint`. -/
  contigHint : ℤ

/-- The entries in use. -/
def PcpuChunk.entries (c : PcpuChunk) : List ℤ := window c.map 0 c.mapUsed

/-- `pcpu_alloc_chunk` with the given `pcpu_unit_size`; the new map is zeroed. -/
def pcpuAllocChunk (pcpuUnitSize : ℕ) : PcpuChunk where
  mapUsed := 1
  mapAlloc := pcpuDflMapAlloc
  map := Function.update (fun _ => 0) 0 (pcpuUnitSize : ℤ)
  freeSize := pcpuUnitSize
  contigHint := pcpuUnitSize

/-- `pcpu_extend_area_map`, whose allocation succeeds as given. The new array is zeroed and
receives a copy of the old one. -/
def pcpuExtendAreaMap (c : PcpuChunk) (newAlloc : ℕ) (succeeds : Bool) : PcpuChunk :=
  if succeeds ∧ c.mapAlloc < newAlloc then
    { c with mapAlloc := newAlloc, map := fun i : ℕ => if i < c.mapAlloc then c.map i else 0 }
  else c

/-- A comparison `value < sizeof(int)`, which is made on unsigned words. -/
def belowInt (value : ℤ) : Bool := toUnsigned 64 value < 4

/-- `pcpu_split_block`; the check only reports. -/
def pcpuSplitBlock (c : PcpuChunk) (i : ℕ) (head tail : ℤ) : PcpuChunk :=
  let nrExtra := (if head ≠ 0 then 1 else 0) + (if tail ≠ 0 then 1 else 0)
  let map := move c.map (i + nrExtra) i (c.mapUsed - i)
  let mapHead :=
    if head ≠ 0 then Function.update (Function.update map (i + 1) (map i - head)) i head else map
  let target := if head ≠ 0 then i + 1 else i
  let mapTail :=
    if tail ≠ 0 then
      Function.update (Function.update mapHead target (mapHead target - tail)) (target + 1) tail
    else mapHead
  { c with map := mapTail, mapUsed := c.mapUsed + nrExtra }

/-- The head of block `i` goes to the block before it, free or held. -/
def absorbHead (c : PcpuChunk) (i : ℕ) (head : ℤ) : PcpuChunk :=
  let before :=
    if 0 < c.map (i - 1) then
      { c with map := Function.update c.map (i - 1) (c.map (i - 1) + head) }
    else
      { c with
        map := Function.update c.map (i - 1) (c.map (i - 1) - head)
        freeSize := c.freeSize - head }
  { before with map := Function.update before.map i (before.map i - head) }

/-- The body of the loop of `pcpu_alloc_area` once block `i`, which starts at `off`, is large
enough behind its `head`: the offset returned and the chunk. -/
def takeBlock (c : PcpuChunk) (size : ℕ) (isLast : Bool) (maxContig : ℤ) (i off : ℕ)
    (head : ℤ) : ℤ × PcpuChunk :=
  let absorbs : Bool := head ≠ 0 ∧ (belowInt head ∨ 0 < c.map (i - 1))
  let chunk := if absorbs then absorbHead c i head else c
  let start := if absorbs then off + head else (off : ℤ)
  let head := if absorbs then 0 else head
  let rest := chunk.map i - head - size
  let tail := if belowInt rest then 0 else rest
  let split := if head ≠ 0 ∨ tail ≠ 0 then pcpuSplitBlock chunk i head tail else chunk
  let i := if head ≠ 0 then i + 1 else i
  let maxContig := if head ≠ 0 then max (split.map (i - 1)) maxContig else maxContig
  let maxContig := if tail ≠ 0 then max (split.map (i + 1)) maxContig else maxContig
  (start + head,
    { split with
      contigHint := if isLast then maxContig else max split.contigHint maxContig
      freeSize := split.freeSize - split.map i
      map := Function.update split.map i (-split.map i) })

/-- The loop of `pcpu_alloc_area` from block `i`, which starts at `off`, with the blocks left:
the offset returned, or `-1`, and the chunk. -/
def allocAreaFrom (c : PcpuChunk) (size align : ℕ) (maxContig : ℤ) (i off : ℕ) :
    ℕ → ℤ × PcpuChunk
  | 0 => (-1, { c with contigHint := maxContig })
  | n + 1 =>
    let head := (alignUp 32 off align : ℤ) - off
    if c.map i < 0 then
      allocAreaFrom c size align maxContig (i + 1) (off + (c.map i).natAbs) n
    else if c.map i < toSigned 32 (head + size) then
      allocAreaFrom c size align (max (c.map i) maxContig) (i + 1) (off + (c.map i).natAbs) n
    else takeBlock c size (i + 1 = c.mapUsed) maxContig i off head

/-- `pcpu_alloc_area`. -/
def pcpuAllocArea (c : PcpuChunk) (size align : ℕ) : ℤ × PcpuChunk :=
  allocAreaFrom c size align 0 0 0 c.mapUsed

/-- The search of `pcpu_free_area` from block `i`, which starts at `off`, with the blocks left:
the block that starts at `freeme`, or `map_used`. -/
def findBlock (c : PcpuChunk) (freeme i off : ℕ) : ℕ → ℕ
  | 0 => i
  | n + 1 => if off = freeme then i else findBlock c freeme (i + 1) (off + (c.map i).natAbs) n

/-- `pcpu_free_area` merges the freed block `i` with the one before it: the chunk and the place
of the merged block. -/
def mergePrevious (c : PcpuChunk) (i : ℕ) : PcpuChunk × ℕ :=
  if 0 < i ∧ 0 ≤ c.map (i - 1) then
    let merged := Function.update c.map (i - 1) (c.map (i - 1) + c.map i)
    ({ c with map := move merged i (i + 1) (c.mapUsed - 1 - i), mapUsed := c.mapUsed - 1 }, i - 1)
  else (c, i)

/-- `pcpu_free_area` merges block `i` with the one after it. The entries after both are moved
from index `1 + 2` on. -/
def mergeNext (c : PcpuChunk) (i : ℕ) : PcpuChunk :=
  if i + 1 < c.mapUsed ∧ 0 ≤ c.map (i + 1) then
    let merged := Function.update c.map i (c.map i + c.map (i + 1))
    { c with
      map := move merged (i + 1) (1 + 2) (c.mapUsed - 1 - (i + 1))
      mapUsed := c.mapUsed - 1 }
  else c

/-- `pcpu_free_area`; the checks only report. -/
def pcpuFreeArea (c : PcpuChunk) (freeme : ℕ) : PcpuChunk :=
  let i := findBlock c freeme 0 0 c.mapUsed
  let freed :=
    { c with map := Function.update c.map i (-c.map i), freeSize := c.freeSize - c.map i }
  let previous := mergePrevious freed i
  let next := mergeNext previous.1 previous.2
  { next with contigHint := max (next.map previous.2) next.contigHint }

end BiscuitOS.PercpuModel
