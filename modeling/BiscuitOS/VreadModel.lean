import BiscuitOS.VmapTables
import BiscuitOS.PcpuVmModel
import BiscuitOS.BootArch

/-!
# Reading the vmalloc space

`vread` of `mm/vmalloc.c` with `aligned_vread`, `kmap_atomic` of
`mm/highmem.c` and `vaddr_to_phys` of `tools/debug.c`. Memory is the words of
its pages, tables included, so a byte is a part of a word. Only addresses of
the two banks have memory: a read from elsewhere is noted, and ends the
program. The buffer is a function from offsets to bytes and does not lie in
the pages that are read.
-/

namespace BiscuitOS.VreadModel

open MachineWord MmuModel VmapTables PcpuVmModel BootArch

/-- `VM_IOREMAP`. -/
def vmIoremap : ℕ := 1

/-- `FIXADDR_START`. -/
def fixaddrStart : ℕ := 0xfff00000

/-- `KM_TYPE_NR`. -/
def kmTypeNr : ℕ := 16

/-- `PKMAP_ADDR`. -/
def pkmapAddr (nr : Fin 512) : ℕ := 0xbfe00000 + nr * 4096

/-- The memory and how pages are entered into it for a moment. -/
structure Memory where
  /-- The page tables and the words of all pages. -/
  tables : KernelTables
  /-- `PageHighMem`. -/
  highMem : ℕ → Bool
  /-- `cache_is_vivt`. -/
  vivt : Bool
  /-- The slot of `pkmap_page_table` where a page is entered. -/
  pkmap : ℕ → Option (Fin 512)
  /-- `__kmap_atomic_idx`. -/
  kmapAtomicIdx : ℕ
  /-- `kmap_prot`. -/
  kmapProt : Pgprot

/-- Whether a physical address has memory. Elsewhere `phys_to_mem` answers `NULL`, and an address
behind the array for the end of a bank. -/
def inMemory (addr : ℕ) : Bool :=
  (decide (bank0Start ≤ addr) && decide (addr < bank0Start + bank0Size)) ||
    (decide (bank1Start ≤ addr) && decide (addr < bank1Start + bank1Size))

/-- The byte at a physical address that has memory. -/
def physByte (t : KernelTables) (addr : ℕ) : ℕ :=
  t.words (addr / 4096) (addr % 4096 / 4) / 256 ^ (addr % 4) % 256

/-- `TOP_PTE`, as the table and the entry. -/
def topPte (t : KernelTables) (vaddr : ℕ) : ℕ × ℕ :=
  (pmdPage t (pgdOffsetK 0xffff0000), pteIndex vaddr)

/-- `kmap_high_get`: the address of a page that is entered. -/
def kmapHighGet (m : Memory) (page : ℕ) : Option ℕ := (m.pkmap page).map pkmapAddr

/-- `__fix_to_virt` of the next slot. -/
def kmapSlot (m : Memory) : ℕ := fixaddrStart + (m.kmapAtomicIdx + kmTypeNr) * 4096

/-- `kmap_atomic`. -/
def kmapAtomic (m : Memory) (page : ℕ) : ℕ × Memory :=
  if m.highMem page = false then (physToVirt (page * 4096), m)
  else
    match if m.vivt then kmapHighGet m page else none with
    | some kmap => (kmap, m)
    | none =>
      let pte := topPte m.tables (kmapSlot m)
      (kmapSlot m,
        { m with
          kmapAtomicIdx := m.kmapAtomicIdx + 1
          tables := setPteExt m.tables pte.1 pte.2 (page * 4096 ||| m.kmapProt.val) })

/-- `kunmap_atomic`. -/
def kunmapAtomic (m : Memory) (kvaddr : ℕ) : Memory :=
  if fixaddrStart ≤ kvaddr then
    let pte := topPte m.tables (kvaddr / 4096 * 4096)
    { m with
      kmapAtomicIdx := m.kmapAtomicIdx - 1
      tables := setPteExt m.tables pte.1 pte.2 0 }
  else m

/-- `vaddr_to_phys`: the address of the page, wherever in it the address lies. -/
def vaddrToPhys (t : KernelTables) (vaddr : ℕ) : ℕ :=
  let addr := wrap 32 vaddr
  if t.pmd (pgdOffsetK addr) = 0 then 0
  else
    let pte := t.words (pmdPage t (pgdOffsetK addr)) (pteIndex addr)
    if pte = 0 then 0 else wrap 32 (pte / 4096 * 4096)

/-- Whether the table that `vaddr_to_phys` looks into has memory. -/
def tableInMemory (t : KernelTables) (vaddr : ℕ) : Bool :=
  let pmd := pgdOffsetK (wrap 32 vaddr)
  decide (t.pmd pmd = 0) || inMemory (pmdPage t pmd * 4096)

/-- `memset` at an offset of the buffer. -/
def memset (buf : ℕ → ℕ) (pos val length : ℕ) : ℕ → ℕ := fun k =>
  if pos ≤ k ∧ k < pos + length then val else buf k

/-- `memcpy` to an offset of the buffer. -/
def memcpy (buf : ℕ → ℕ) (pos : ℕ) (src : ℕ → ℕ) (length : ℕ) : ℕ → ℕ := fun k =>
  if pos ≤ k ∧ k < pos + length then src (k - pos) else buf k

/-- Where a read stands: the buffer with the place in it, the address and the bytes left. -/
structure Cursor where
  /-- The bytes of the buffer. -/
  buf : ℕ → ℕ
  /-- `buf - buf_start`. -/
  pos : ℕ
  /-- `addr`. -/
  addr : ℕ
  /-- `count`. -/
  count : ℕ
  /-- The memory. -/
  mem : Memory
  /-- Whether something was read where there is no memory. -/
  died : Bool

/-- The physical address that `aligned_vread` copies from. -/
def copySource (m : Memory) (page offset : ℕ) : ℕ :=
  vaddrToPhys (kmapAtomic m page).2.tables ((kmapAtomic m page).1 + offset)

/-- Whether `aligned_vread` can copy from a page: the table of the address and the source of the
copy have memory. -/
def copyReadable (m : Memory) (page offset : ℕ) : Bool :=
  tableInMemory (kmapAtomic m page).2.tables ((kmapAtomic m page).1 + offset) &&
    inMemory (copySource m page offset)

/-- One round of `aligned_vread`: the rest of a page. -/
def alignedRound (c : Cursor) : Cursor :=
  let offset := c.addr % 4096
  let length := min (4096 - offset) c.count
  match vmallocToPage c.mem.tables c.addr with
  | some page =>
    let map := kmapAtomic c.mem page
    let src := fun i => physByte map.2.tables (copySource c.mem page offset + i)
    ⟨memcpy c.buf c.pos src length, c.pos + length, c.addr + length, c.count - length,
      kunmapAtomic map.2 map.1, c.died || !copyReadable c.mem page offset⟩
  | none =>
    ⟨memset c.buf c.pos 0 length, c.pos + length, c.addr + length, c.count - length, c.mem, c.died⟩

/-- The end of an area without its guard page. -/
def liveEnd (v : VmStruct) : ℕ := v.addr + v.size - 4096

end BiscuitOS.VreadModel
