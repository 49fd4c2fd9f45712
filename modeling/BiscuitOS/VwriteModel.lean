import BiscuitOS.VreadModel

/-!
# Writing to the vmalloc space

`vwrite` of `mm/vmalloc.c` with `aligned_vwrite`. Memory, its pages and the
way they are entered are those of a read. Each byte that is stored is noted
with the place in the buffer it comes from.
-/

namespace BiscuitOS.VwriteModel

open MachineWord VmapTables PcpuVmModel VreadModel

/-- A word with another byte. -/
def setByte (word i byte : ℕ) : ℕ :=
  word / 256 ^ (i + 1) * 256 ^ (i + 1) + byte % 256 * 256 ^ i + word % 256 ^ i

/-- Store a byte at a physical address, that of `phys_to_mem`. -/
def storeByte (t : KernelTables) (addr byte : ℕ) : KernelTables :=
  { t with
    words := Function.update t.words (addr / 4096)
      (Function.update (t.words (addr / 4096)) (addr % 4096 / 4)
        (setByte (t.words (addr / 4096) (addr % 4096 / 4)) (addr % 4) byte)) }

/-- Store bytes of a buffer, each given by its address and its place in the buffer. -/
def applyStores (buf : ℕ → ℕ) (t : KernelTables) (stores : List (ℕ × ℕ)) : KernelTables :=
  stores.foldl (fun t s => storeByte t s.1 (buf s.2)) t

/-- The stores of a `memcpy` from a place in the buffer. -/
def copyStores (dst pos length : ℕ) : List (ℕ × ℕ) :=
  (List.range length).map fun i => (dst + i, pos + i)

/-- `memcpy` from a place in the buffer. -/
def memcpyFrom (buf : ℕ → ℕ) (m : Memory) (dst pos length : ℕ) : Memory :=
  { m with tables := applyStores buf m.tables (copyStores dst pos length) }

/-- Where a write stands: the place in the buffer, the address and the bytes left. -/
structure WriteCursor where
  /-- `buf`, from its start. -/
  pos : ℕ
  /-- `addr`. -/
  addr : ℕ
  /-- `count`. -/
  count : ℕ
  /-- `copied`. -/
  copied : ℤ
  /-- The memory. -/
  mem : Memory
  /-- The bytes stored, with their places in the buffer. -/
  stores : List (ℕ × ℕ)

/-- One round of `aligned_vwrite`: the rest of a page. -/
def alignedRound (buf : ℕ → ℕ) (c : WriteCursor) : WriteCursor :=
  let offset := c.addr % 4096
  let length := min (4096 - offset) c.count
  match vmallocToPage c.mem.tables c.addr with
  | some page =>
    let map := kmapAtomic c.mem page
    let dst := copySource c.mem page offset
    { c with
      pos := c.pos + length
      addr := c.addr + length
      count := c.count - length
      mem := kunmapAtomic (memcpyFrom buf map.2 dst c.pos length) map.1
      stores := c.stores ++ copyStores dst c.pos length }
  | none =>
    { c with
      pos := c.pos + length
      addr := c.addr + length
      count := c.count - length }

/-- `aligned_vwrite`: every round writes a byte at least. -/
def alignedVwrite (buf : ℕ → ℕ) : ℕ → WriteCursor → WriteCursor
  | 0, c => c
  | fuel + 1, c => if c.count = 0 then c else alignedVwrite buf fuel (alignedRound buf c)

/-- The loop over the bytes before an area, and whether it ran out of bytes to write. It adds to
the bytes left what it passes. -/
def skipHole (vaddr : ℕ) : ℕ → WriteCursor → Bool × WriteCursor
  | 0, c => (false, c)
  | fuel + 1, c =>
    if c.addr < vaddr then
      if c.count = 0 then (true, c)
      else
        skipHole vaddr fuel
          { c with
            pos := c.pos + 1
            addr := c.addr + 1
            count := wrap 64 (c.count + 1) }
    else (false, c)

/-- The part of an area that is written. -/
def writeArea (buf : ℕ → ℕ) (tmp : VmStruct) (c : WriteCursor) : WriteCursor :=
  let n := min (liveEnd tmp - c.addr) c.count
  let r :=
    if tmp.flags &&& vmIoremap = 0 then
      let w := alignedVwrite buf n { c with count := n }
      { w with copied := toSigned 32 (w.copied + 1) }
    else c
  { r with pos := c.pos + n, addr := c.addr + n, count := c.count - n }

/-- The loop of `vwrite` over `vmlist`. -/
def vwriteLoop (buf : ℕ → ℕ) : List VmStruct → WriteCursor → WriteCursor
  | [], c => c
  | tmp :: next, c =>
    if c.count = 0 then c
    else if liveEnd tmp ≤ c.addr then vwriteLoop buf next c
    else
      let hole := skipHole tmp.addr (tmp.addr - c.addr) c
      if hole.1 then hole.2 else vwriteLoop buf next (writeArea buf tmp hole.2)

/-- `vwrite`: the answer, the memory and the bytes stored. -/
def vwrite (m : Memory) (vmlist : List VmStruct) (buf : ℕ → ℕ) (addr count : ℕ) :
    ℕ × Memory × List (ℕ × ℕ) :=
  let buflen := if wrap 64 (addr + count) < count then wrapSub 64 0 addr else count
  let c := vwriteLoop buf vmlist ⟨0, addr, buflen, 0, m, []⟩
  (if c.copied = 0 then 0 else buflen, c.mem, c.stores)

end BiscuitOS.VwriteModel
