import BiscuitOS.MemblockModel

/-!
# Building the kernel page tables

`create_mapping`, `map_lowmem` and what they use in `arch/arm/mm/mmu.c`. The
directory is `swapper_pg_dir`: 2048 groups of two entries for one megabyte
each. A second-level table is the page that `early_alloc` gave for it. The
words of both are 32 bits; addresses are `unsigned long` and stay far below
2^64. A store outside the directory, or outside the page of a table, gives no
result. `BUG_ON` only reports, which the state keeps.
-/

namespace BiscuitOS.MmuModel

open MachineWord MemblockModel

/-- `PAGE_OFFSET`. -/
def pageOffset : ℕ := 0xC0000000

/-- `PHYS_OFFSET`. -/
def physOffset : ℕ := 0x50000000

/-- `TASK_SIZE`. -/
def taskSize : ℕ := pageOffset - 0x01000000

/-- `vectors_base`, with the vectors at their high place. -/
def vectorsBase : ℕ := 0xffff0000

/-- `SECTION_SIZE`. -/
def sectionSize : ℕ := 2 ^ 20

/-- `PGDIR_SIZE`. -/
def pgdirSize : ℕ := 2 ^ 21

/-- `PTRS_PER_PGD`. -/
def ptrsPerPgd : ℕ := 2048

/-- `PTRS_PER_PTE`. -/
def ptrsPerPte : ℕ := 512

/-- `PTE_HWTABLE_OFF`. -/
def pteHwtableOff : ℕ := 2048

/-- `PAGE_ALIGN`: the unsigned mask has 32 bits and rounds down. -/
def pageAlign (x : ℕ) : ℕ := alignDown 32 x pageSize

/-- The types of `struct map_desc`. -/
inductive MapType
  | device
  | deviceNonshared
  | deviceCached
  | deviceWc
  | uncached
  | cacheclean
  | miniclean
  | lowVectors
  | highVectors
  | memory
  | rom
  | memoryNoncached
  | memoryDtcm
  | memoryItcm
  deriving DecidableEq

/-- `struct mem_type`, with what every entry of the table keeps. -/
structure MemType where
  /-- `prot_pte`. -/
  protPte : ℕ
  /-- `prot_l1`. -/
  protL1 : ℕ
  /-- `prot_sect`. -/
  protSect : ℕ
  /-- The flags of a page lie below its address. -/
  protPte_lt : protPte < 2 ^ 12
  /-- The flags of a section lie below its address, and never name a table. -/
  protSect_lt : protSect < 2 ^ 20 ∧ protSect % 2 = 0
  /-- A type without table flags is mapped by sections alone; with them, pages are present. -/
  protL1_table : protL1 = 0 ∨ protL1 % 4 = 1 ∧ protL1 < 2 ^ 10 ∧ protPte % 2 = 1

/-- `L_PTE_PRESENT | L_PTE_YOUNG | L_PTE_DIRTY`. -/
def ptePresent : ℕ := 2 ^ 0 ||| 2 ^ 1 ||| 2 ^ 6

/-- `PROT_PTE_DEVICE`. -/
def protPteDevice : ℕ := ptePresent ||| 2 ^ 9

/-- `PROT_SECT_DEVICE`. -/
def protSectDevice : ℕ := 2 ||| 2 ^ 10

/-- `mem_types`. -/
def memTypes : MapType → MemType
  | .device => ⟨protPteDevice ||| 0x04 <<< 2 ||| 2 ^ 10, 1, protSectDevice ||| 2 ^ 16,
      by decide, by decide, by decide⟩
  | .deviceNonshared => ⟨protPteDevice ||| 0x0c <<< 2, 1, protSectDevice, by decide, by decide, by decide⟩
  | .deviceCached => ⟨protPteDevice ||| 0x0b <<< 2, 1, protSectDevice ||| (2 ^ 3 ||| 2 ^ 2),
      by decide, by decide, by decide⟩
  | .deviceWc => ⟨protPteDevice ||| 0x09 <<< 2, 1, 2 ||| 2 ^ 4, by decide, by decide, by decide⟩
  | .uncached => ⟨protPteDevice, 1, 2 ||| 2 ^ 4, by decide, by decide, by decide⟩
  | .cacheclean => ⟨0, 0, 2 ||| 2 ^ 4, by decide, by decide, by decide⟩
  | .miniclean => ⟨0, 0, 2 ||| 2 ^ 4 ||| (1 <<< 12 ||| 2 ^ 3), by decide, by decide, by decide⟩
  | .lowVectors => ⟨ptePresent ||| 2 ^ 7, 1, 0, by decide, by decide, by decide⟩
  | .highVectors => ⟨ptePresent ||| 2 ^ 8 ||| 2 ^ 7, 1, 0, by decide, by decide, by decide⟩
  | .memory => ⟨ptePresent, 1, 2 ||| 2 ^ 10, by decide, by decide, by decide⟩
  | .rom => ⟨2, 0, 0, by decide, by decide, by decide⟩
  | .memoryNoncached => ⟨ptePresent ||| 0x01 <<< 2, 1, 2 ||| 2 ^ 10, by decide, by decide, by decide⟩
  | .memoryDtcm => ⟨ptePresent ||| 2 ^ 9, 1, 2 ||| 2 ^ 4, by decide, by decide, by decide⟩
  | .memoryItcm => ⟨ptePresent, 1, 0, by decide, by decide, by decide⟩

/-- `struct map_desc`. -/
structure MapDesc where
  /-- `virtual`. -/
  virt : ℕ
  /-- `pfn`. -/
  pfn : ℕ
  /-- `length`. -/
  length : ℕ
  /-- `type`. -/
  type : MapType

/-- The pages `early_alloc` gives, in order: no page twice. -/
structure EarlyPages where
  /-- The page frame number of each. -/
  frame : ℕ → ℕ
  /-- They are in physical memory. -/
  frame_lt : ∀ k, frame k < 2 ^ 20
  /-- No page is given twice, as long as memory lasts. -/
  frame_ne : ∀ j k, j < 2 ^ 20 → k < 2 ^ 20 → frame j = frame k → j = k

/-- The tables. -/
structure Mmu where
  /-- The words of the directory. -/
  pmd : ℕ → ℕ
  /-- The words of a page, by its page frame number. -/
  pte : ℕ → ℕ → ℕ
  /-- The number of pages `early_alloc` has given. -/
  given : ℕ
  /-- A `BUG_ON` was reported. -/
  bug : Bool

/-- Store a word of the directory. -/
def Mmu.setPmd (st : Mmu) (i val : ℕ) : Option Mmu :=
  if i < 2 * ptrsPerPgd then some { st with pmd := Function.update st.pmd i (wrap 32 val) } else none

/-- Store a word of a page. -/
def Mmu.setPte (st : Mmu) (frame i val : ℕ) : Option Mmu :=
  if i < 1024 then
    some { st with pte := Function.update st.pte frame (Function.update (st.pte frame) i (wrap 32 val)) }
  else none

variable (pages : EarlyPages)

/-- `early_alloc` of one page, cleared: its address and the state. -/
def earlyAlloc (st : Mmu) : ℕ × Mmu :=
  (pages.frame st.given * pageSize,
    { st with
      pte := Function.update st.pte (pages.frame st.given) fun _ => 0
      given := st.given + 1 })

/-- `__pmd_populate`. -/
def pmdPopulate (st : Mmu) (pmd pte prot : ℕ) : Option Mmu :=
  let pmdval := (pte + pteHwtableOff) ||| prot
  (st.setPmd pmd pmdval).bind fun st => st.setPmd (pmd + 1) (pmdval + 256 * 4)

/-- `pte_index`. -/
def pteIndex (addr : ℕ) : ℕ := (addr >>> 12) &&& (ptrsPerPte - 1)

/-- `pmd_bad`. -/
def pmdBad (st : Mmu) (pmd : ℕ) : Bool := decide (st.pmd pmd &&& 2 ≠ 0)

/-- `early_pte_alloc`: the state, and the page and the word of the entry. -/
def earlyPteAlloc (st : Mmu) (pmd addr prot : ℕ) : Option (Mmu × ℕ × ℕ) :=
  (if pmd < 2 * ptrsPerPgd then
    if st.pmd pmd = 0 then
      let r := earlyAlloc pages st
      pmdPopulate r.2 pmd r.1 prot
    else some st
  else none).map fun st =>
    ({ st with bug := st.bug || pmdBad st pmd }, st.pmd pmd >>> 12, pteIndex addr)

/-- The loop of `alloc_init_pte`, with fuel. -/
def ptesLoop (st : Mmu) (frame i addr fin pfn prot : ℕ) : ℕ → Option Mmu
  | 0 => none
  | fuel + 1 =>
    (st.setPte frame i (pfn <<< 12 ||| prot)).bind fun st =>
      if addr + pageSize = fin then some st
      else ptesLoop st frame (i + 1) (addr + pageSize) fin (pfn + 1) prot fuel

/-- `alloc_init_pte`, with fuel. -/
def allocInitPte (st : Mmu) (pmd addr fin pfn : ℕ) (type : MemType) (fuel : ℕ) : Option Mmu :=
  (earlyPteAlloc pages st pmd addr type.protL1).bind fun r =>
    ptesLoop r.1 r.2.1 r.2.2 addr fin pfn type.protPte fuel

/-- The loop over sections of `alloc_init_section`, with fuel: `phys` has 32 bits. -/
def sectionsLoop (st : Mmu) (pmd addr fin phys prot : ℕ) : ℕ → Option Mmu
  | 0 => none
  | fuel + 1 =>
    (st.setPmd pmd (phys ||| prot)).bind fun st =>
      if addr + sectionSize = fin then some st
      else sectionsLoop st (pmd + 1) (addr + sectionSize) fin (wrap 32 (phys + sectionSize)) prot fuel

/-- `alloc_init_section`, with fuel: `pgd` is the index of the group, and `phys` has 32 bits. -/
def allocInitSection (st : Mmu) (pgd addr fin phys : ℕ) (type : MemType) (fuel : ℕ) : Option Mmu :=
  if (addr ||| fin ||| phys) &&& (sectionSize - 1) = 0 then
    sectionsLoop st (if addr &&& sectionSize ≠ 0 then 2 * pgd + 1 else 2 * pgd) addr fin phys type.protSect
      fuel
  else allocInitPte pages st (2 * pgd) addr fin (phys >>> 12) type fuel

/-- `pgd_addr_end`. -/
def pgdAddrEnd (addr fin : ℕ) : ℕ :=
  let boundary := alignDown 64 (addr + pgdirSize) pgdirSize
  if wrapSub 64 boundary 1 < wrapSub 64 fin 1 then boundary else fin

/-- The loop of `create_mapping`, with fuel for itself and in `inner` for the loops inside. -/
def pgdsLoop (st : Mmu) (pgd addr fin phys : ℕ) (type : MemType) (inner : ℕ) : ℕ → Option Mmu
  | 0 => none
  | fuel + 1 =>
    let next := pgdAddrEnd addr fin
    (allocInitSection pages st pgd addr next (wrap 32 phys) type inner).bind fun st =>
      if next = fin then some st
      else pgdsLoop st (pgd + 1) next fin (phys + (next - addr)) type inner fuel

/-- `create_36bit_mapping`: its store is commented out, so that it changes nothing. -/
def create36bitMapping (st : Mmu) : Mmu := st

/-- The type has no table flags, and the mapping is not made of sections. -/
def Unmappable (type : MemType) (addr phys length : ℕ) : Prop :=
  type.protL1 = 0 ∧ (addr ||| phys ||| length) &&& (sectionSize - 1) ≠ 0

instance (type : MemType) (addr phys length : ℕ) : Decidable (Unmappable type addr phys length) :=
  inferInstanceAs (Decidable (_ ∧ _))

/-- `create_mapping`, with fuel for its loops. The warning about the vmalloc space changes
nothing. -/
def createMapping (types : MapType → MemType) (st : Mmu) (md : MapDesc) (fuel : ℕ) : Option Mmu :=
  if md.virt ≠ vectorsBase ∧ md.virt < taskSize then some st
  else if 0x100000 ≤ md.pfn then some (create36bitMapping st)
  else
    let addr := alignDown 32 md.virt pageSize
    let phys := md.pfn <<< 12
    let length := pageAlign (md.length + md.virt % pageSize)
    if Unmappable (types md.type) addr phys length then some st
    else pgdsLoop pages st (addr >>> 21) addr (addr + length) phys (types md.type) fuel fuel

/-- `phys_to_virt`. -/
def physToVirt (x : ℕ) : ℕ := wrap 64 (wrapSub 64 x physOffset + pageOffset)

/-- The loop of `map_lowmem` from region `i` on, over `n` regions; `fuel` is for the loops
inside. -/
def lowmemLoop (types : MapType → MemType) (t : MemblockType) (lowmemLimit fuel : ℕ) (st : Mmu) (i : ℕ) :
    ℕ → Option Mmu
  | 0 => some st
  | n + 1 =>
    let start := wrap 32 (t.regions i).base
    let last := wrap 32 (start + (t.regions i).size)
    let last := if lowmemLimit < last then lowmemLimit else last
    if last ≤ start then some st
    else
      (createMapping pages types st ⟨physToVirt start, start >>> 12, last - start, .memory⟩ fuel).bind
        fun st => lowmemLoop types t lowmemLimit fuel st (i + 1) n

/-- `map_lowmem`, with fuel for the loops inside. -/
def mapLowmem (types : MapType → MemType) (t : MemblockType) (lowmemLimit : ℕ) (st : Mmu) (fuel : ℕ) :
    Option Mmu :=
  lowmemLoop pages types t lowmemLimit fuel st 0 t.cnt

end BiscuitOS.MmuModel
