import BiscuitOS.MmuModel
import BiscuitOS.RangeWalk

/-!
# The page tables of the vmalloc space

`vmap_page_range_noflush`, `vunmap_page_range` and `vmalloc_to_page` of
`mm/vmalloc.c` over the words of the kernel's page directory and of its page
tables. An entry of the directory is a pair of words, of which the walkers
read the first; the levels between are folded into it. A page is known by its
page frame number. Page tables are pages of the linear mapping, so that
`kmap_atomic` gives their linear address.
-/

namespace BiscuitOS.VmapTables

open MachineWord MmuModel RangeWalk

/-- `L_PTE_PRESENT`. -/
def lPtePresent : ℕ := 1

/-- `_PAGE_KERNEL_TABLE`: a table, `PMD_BIT4` and the domain of the kernel. -/
def pageKernelTable : ℕ := 1 ||| 2 ^ 4 ||| 2 <<< 5

/-- `ENOMEM`. -/
def enomem : ℤ := 12

/-- `EBUSY`. -/
def ebusy : ℤ := 16

/-- The tables and the pages left for new ones. -/
structure KernelTables where
  /-- The words of `init_mm.pgd`. -/
  pmd : ℕ → ℕ
  /-- The words of a page, by its page frame number. -/
  words : ℕ → ℕ → ℕ
  /-- The pages that `__get_free_page` answers, in order. -/
  free : List ℕ

/-- A `pgprot_t` of the kernel: its flags lie below the page's address, and it is present. -/
structure Pgprot where
  /-- `pgprot`. -/
  val : ℕ
  /-- The flags lie below the address. -/
  val_lt : val < 2 ^ 12
  /-- The page is present. -/
  present : val % 2 = 1

/-- `set_pte_ext`. -/
def setPteExt (t : KernelTables) (frame entry val : ℕ) : KernelTables :=
  { t with words := Function.update t.words frame (Function.update (t.words frame) entry (wrap 32 val)) }

/-- `__get_free_page(PGALLOC_GFP)`: the page is cleared. -/
def getFreePage (t : KernelTables) : Option (ℕ × KernelTables) :=
  match t.free with
  | [] => none
  | frame :: rest =>
    some (frame, { t with words := Function.update t.words frame fun _ => 0, free := rest })

/-- `pmd_populate_kernel`. -/
def pmdPopulateKernel (t : KernelTables) (pmd frame : ℕ) : KernelTables :=
  let pmdval := (frame * 4096 + pteHwtableOff) ||| pageKernelTable
  { t with
    pmd := Function.update (Function.update t.pmd pmd (wrap 32 pmdval)) (pmd + 1)
      (wrap 32 (pmdval + 256 * 4)) }

/-- `pmd_clear`. -/
def pmdClear (t : KernelTables) (pmd : ℕ) : KernelTables :=
  { t with pmd := Function.update (Function.update t.pmd pmd 0) (pmd + 1) 0 }

/-- `pmd_page_vaddr`, as the page frame number of the table. -/
def pmdPage (t : KernelTables) (pmd : ℕ) : ℕ := t.pmd pmd / 4096

/-- `pmd_bad`. -/
def pmdBad (t : KernelTables) (pmd : ℕ) : Bool := decide (t.pmd pmd &&& 2 ≠ 0)

/-- `pmd_addr_end`, for directories of the size of a middle entry. -/
def pmdAddrEnd (addr fin : ℕ) : ℕ := pgdAddrEnd addr fin

/-- `pud_addr_end`: the level is folded. -/
def pudAddrEnd (_ fin : ℕ) : ℕ := fin

/-- The next entry of a page table. -/
def pteAddrEnd (addr _ : ℕ) : ℕ := addr + 4096

/-- `pgd_index`, as the first word of the entry. -/
def pgdOffsetK (addr : ℕ) : ℕ := 2 * (addr / 2 ^ 21)

/-- `pte_alloc_kernel`: the table of an entry, none when there is no page for it. -/
def pteAllocKernel (t : KernelTables) (pmd : ℕ) : Option (ℕ × KernelTables) :=
  if t.pmd pmd = 0 then
    (getFreePage t).map fun r =>
      (pmdPage (pmdPopulateKernel r.2 pmd r.1) pmd, pmdPopulateKernel r.2 pmd r.1)
  else some (pmdPage t pmd, t)

variable (prot : Pgprot) (pages : ℕ → Option ℕ)

/-- One round of `vmap_pte_range` at an entry of the table `frame`: the tables and `*nr`. -/
def vmapPte (frame : ℕ) (s : KernelTables × ℕ) (pte _ _ : ℕ) : Option (ℤ × KernelTables × ℕ) :=
  if s.1.words frame pte ≠ 0 then some (-ebusy, s)
  else
    match pages s.2 with
    | none => some (-enomem, s)
    | some page => some (0, setPteExt s.1 frame pte (page * 4096 ||| prot.val), s.2 + 1)

/-- `vmap_pte_range`. -/
def vmapPteRange (s : KernelTables × ℕ) (pmd addr fin : ℕ) : Option (ℤ × KernelTables × ℕ) :=
  match pteAllocKernel s.1 pmd with
  | none => some (-enomem, s)
  | some r =>
    walk 1 pteAddrEnd (vmapPte prot pages r.1) fin (fin - addr) (r.2, s.2) (pteIndex addr) addr

/-- `vmap_pmd_range`. -/
def vmapPmdRange (s : KernelTables × ℕ) (pud addr fin : ℕ) : Option (ℤ × KernelTables × ℕ) :=
  (walk 1 pmdAddrEnd (vmapPteRange prot pages) fin (fin - addr) s pud addr).map fun r =>
    if r.1 ≠ 0 then (-enomem, r.2) else r

/-- `vmap_pud_range`. -/
def vmapPudRange (s : KernelTables × ℕ) (pgd addr fin : ℕ) : Option (ℤ × KernelTables × ℕ) :=
  (walk 2 pudAddrEnd (vmapPmdRange prot pages) fin (fin - addr) s pgd addr).map fun r =>
    if r.1 ≠ 0 then (-enomem, r.2) else r

/-- `vmap_page_range_noflush`: the number of pages mapped or an error, and the tables. -/
def vmapPageRangeNoflush (t : KernelTables) (start fin : ℕ) : Option (ℤ × KernelTables) :=
  (walk 2 pgdAddrEnd (vmapPudRange prot pages) fin (fin - start) (t, 0) (pgdOffsetK start) start).map
    fun r => (if r.1 ≠ 0 then r.1 else r.2.2, r.2.1)

/-- One round of `vunmap_pte_range`: `ptep_get_and_clear`. -/
def vunmapPte (frame : ℕ) (t : KernelTables) (pte _ _ : ℕ) : Option (ℤ × KernelTables) :=
  some (0, setPteExt t frame pte 0)

/-- `pmd_none_or_clear_bad` and `vunmap_pte_range`. -/
def vunmapPteRange (t : KernelTables) (pmd addr fin : ℕ) : Option (ℤ × KernelTables) :=
  if t.pmd pmd = 0 then some (0, t)
  else if pmdBad t pmd then some (0, pmdClear t pmd)
  else walk 1 pteAddrEnd (vunmapPte (pmdPage t pmd)) fin (fin - addr) t (pteIndex addr) addr

/-- `vunmap_pmd_range`. -/
def vunmapPmdRange (t : KernelTables) (pud addr fin : ℕ) : Option (ℤ × KernelTables) :=
  walk 1 pmdAddrEnd vunmapPteRange fin (fin - addr) t pud addr

/-- `vunmap_pud_range`. -/
def vunmapPudRange (t : KernelTables) (pgd addr fin : ℕ) : Option (ℤ × KernelTables) :=
  walk 2 pudAddrEnd vunmapPmdRange fin (fin - addr) t pgd addr

/-- `vunmap_page_range`. -/
def vunmapPageRange (t : KernelTables) (start fin : ℕ) : Option KernelTables :=
  (walk 2 pgdAddrEnd vunmapPudRange fin (fin - start) t (pgdOffsetK start) start).map Prod.snd

/-- The word of the page table for an address, zero without a table. -/
def pteWord (t : KernelTables) (addr : ℕ) : ℕ :=
  if t.pmd (pgdOffsetK addr) = 0 then 0 else t.words (pmdPage t (pgdOffsetK addr)) (pteIndex addr)

/-- `vmalloc_to_page`: none for `NULL`. -/
def vmallocToPage (t : KernelTables) (addr : ℕ) : Option ℕ :=
  if t.pmd (pgdOffsetK addr) = 0 then none
  else
    let pte := t.words (pmdPage t (pgdOffsetK addr)) (pteIndex addr)
    if pte &&& lPtePresent ≠ 0 then some (pte / 4096) else none

end BiscuitOS.VmapTables
