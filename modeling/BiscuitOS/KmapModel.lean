import BiscuitOS.PageAddressModel

/-!
# Kernel mappings of high-memory pages

`mm/highmem.c`: the ring of `pkmap` slots with their counts, the page that
each slot's pte was made of, and the hash table from pages to addresses. Pages
are the addresses of their descriptors. `PageHighMem`, which reads the
descriptor, and the address of a page that is not in high memory are
parameters, since no function here changes a descriptor. Locks and cache
flushes are not modelled.
-/

namespace BiscuitOS.KmapModel

open MachineWord PageAddressModel

/-- `PKMAP_BASE`. -/
def pkmapBase : ℕ := 0xC0000000 - 2 ^ 21

/-- `PKMAP_NR`. -/
def pkmapNr (virt : ℕ) : ℕ := wrapSub 64 virt pkmapBase / 4096

/-- `PKMAP_ADDR`. -/
def pkmapAddr (nr : ℕ) : ℕ := pkmapBase + nr * 4096

/-- The state of `highmem.c`. -/
structure Highmem extends PageAddressTable where
  /-- `pkmap_count`. -/
  pkmapCount : ℕ → ℤ
  /-- `last_pkmap_nr`. -/
  lastPkmapNr : ℕ
  /-- The page of which the pte of a slot was made. -/
  pkmapPage : ℕ → Option ℕ

/-- After `page_address_init`. -/
def pageAddressInit : Highmem where
  toPageAddressTable := PageAddressModel.pageAddressInit
  pkmapCount := fun _ => 0
  lastPkmapNr := 0
  pkmapPage := fun _ => none

/-- `page_address` of a high-memory page, zero when it has none. -/
def pageAddress (w : Highmem) (page : ℕ) : ℕ :=
  PageAddressModel.pageAddress w.toPageAddressTable page

section Pages

variable (pageHighMem : ℕ → Option Bool)

/-- `set_page_address`. Its check reads the descriptor of the page, and only reports; there is no
result where no descriptor can be read. -/
def setPageAddress (w : Highmem) (page virtual : ℕ) : Option Highmem :=
  (pageHighMem page).bind fun _ =>
    (PageAddressModel.setPageAddress w.toPageAddressTable page virtual).map fun table =>
      { w with toPageAddressTable := table }

/-- The body of the loop of `flush_all_zero_pkmaps`. The local `page` is never assigned; `stray`
is what it holds. -/
def flushSlot (w : Highmem) (stray : ℕ → ℕ) (i : ℕ) : Option Highmem :=
  if w.pkmapCount i = 1 then
    setPageAddress pageHighMem { w with pkmapCount := Function.update w.pkmapCount i 0 } (stray i) 0
  else some w

/-- The loop of `flush_all_zero_pkmaps` from slot `i`, with the slots left. -/
def flushFrom (w : Highmem) (stray : ℕ → ℕ) (i : ℕ) : ℕ → Option Highmem
  | 0 => some w
  | n + 1 => (flushSlot pageHighMem w stray i).bind fun t => flushFrom t stray (i + 1) n

/-- `flush_all_zero_pkmaps`. -/
def flushAllZeroPkmaps (w : Highmem) (stray : ℕ → ℕ) : Option Highmem :=
  flushFrom pageHighMem w stray 0 lastPkmap

/-- The search of `map_new_virtual` for a slot with count zero, with the attempts left. Its
counter of attempts never ends the loop. -/
def findUsable (w : Highmem) (stray : ℕ → ℕ) : ℕ → Option Highmem
  | 0 => none
  | n + 1 =>
    let nr := (w.lastPkmapNr + 1) % lastPkmap
    let next := { w with lastPkmapNr := nr }
    (if nr = 0 then flushAllZeroPkmaps pageHighMem next stray else some next).bind fun flushed =>
      if flushed.pkmapCount nr = 0 then some flushed else findUsable flushed stray n

/-- `map_new_virtual`: the address and the state. -/
def mapNewVirtual (w : Highmem) (page : ℕ) (stray : ℕ → ℕ) : Option (ℕ × Highmem) :=
  (findUsable pageHighMem w stray (2 * lastPkmap)).bind fun found =>
    let nr := found.lastPkmapNr
    let mapped := { found with
      pkmapPage := Function.update found.pkmapPage nr (some page)
      pkmapCount := Function.update found.pkmapCount nr 1 }
    (setPageAddress pageHighMem mapped page (pkmapAddr nr)).map fun added => (pkmapAddr nr, added)

/-- `pkmap_count` of the slot of an address, raised by `d`. -/
def addToCount (w : Highmem) (vaddr : ℕ) (d : ℤ) : Option Highmem :=
  if pkmapNr vaddr < lastPkmap then
    some { w with
      pkmapCount := Function.update w.pkmapCount (pkmapNr vaddr)
        (toSigned 32 (w.pkmapCount (pkmapNr vaddr) + d)) }
  else none

/-- `kmap_high`: the address and the state. -/
def kmapHigh (w : Highmem) (page : ℕ) (stray : ℕ → ℕ) : Option (ℕ × Highmem) :=
  let vaddr := wrap 32 (pageAddress w page)
  (if vaddr = 0 then mapNewVirtual pageHighMem w page stray else some (vaddr, w)).bind fun mapped =>
    (addToCount mapped.2 (wrap 32 mapped.1) 1).map fun counted => (wrap 32 mapped.1, counted)

/-- `kunmap_high`; the checks only report. -/
def kunmapHigh (w : Highmem) (page : ℕ) : Option Highmem := addToCount w (pageAddress w page) (-1)

/-- `kmap`: the address and the state. -/
def kmap (lowmemPageAddress : ℕ → ℕ) (w : Highmem) (page : ℕ) (stray : ℕ → ℕ) :
    Option (ℕ × Highmem) :=
  (pageHighMem page).bind fun high =>
    if high then kmapHigh pageHighMem w page stray else some (lowmemPageAddress page, w)

/-- `kunmap`. -/
def kunmap (w : Highmem) (page : ℕ) : Option Highmem :=
  (pageHighMem page).bind fun high => if high then kunmapHigh w page else some w

end Pages

end BiscuitOS.KmapModel
