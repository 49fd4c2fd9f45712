import BiscuitOS.ArrayWindow
import BiscuitOS.LoopRun
import BiscuitOS.MmuModel

/-!
# Memory banks

`meminfo`, its check against the lowmem limit in `sanity_check_meminfo` of
`arch/arm/mm/mmu.c`, and `find_limits` of `arch/arm/mm/init.c`, with
`CONFIG_HIGHMEM` and eight banks. Fields of a bank are words of 32 bits,
virtual addresses words of 64 bits.
-/

namespace BiscuitOS.MeminfoModel

open MachineWord ArrayWindow LoopRun MmuModel

/-- `NR_BANKS`. -/
def maxBanks : ℕ := 8

/-- `struct membank`. -/
structure Membank where
  /-- `start`. -/
  start : ℕ
  /-- `size`. -/
  size : ℕ
  /-- `highmem`. -/
  highmem : Bool
  deriving DecidableEq

/-- `struct meminfo`. -/
structure Meminfo where
  /-- `nr_banks`. -/
  nrBanks : ℕ
  /-- `bank`. -/
  bank : ℕ → Membank

/-- The banks in use. -/
def Meminfo.banks (mi : Meminfo) : List Membank := window mi.bank 0 mi.nrBanks

/-- `bank_pfn_start`. -/
def bankPfnStart (b : Membank) : ℕ := b.start >>> 12

/-- `bank_pfn_end`. -/
def bankPfnEnd (b : Membank) : ℕ := wrap 32 (b.start + b.size) >>> 12

/-- `virt_to_phys`. -/
def virtToPhys (x : ℕ) : ℕ := wrap 64 (wrapSub 64 x pageOffset + physOffset)

/-- `VMALLOC_END`. -/
def vmallocEnd : ℕ := 0xE0800000

/-- The limits that `early_vmalloc` puts on its argument. -/
def earlyVmalloc (reserve : ℕ) : ℕ :=
  let reserve := if reserve < 0x1000000 then 0x1000000 else reserve
  if vmallocEnd - (pageOffset + 0x2000000) < reserve then vmallocEnd - (pageOffset + 0x2000000)
  else reserve

/-- `vmalloc_min`: its initial value, or what `early_vmalloc` makes of its argument. -/
def vmallocMin (arg : Option ℕ) : ℕ := vmallocEnd - arg.elim 0x8000000 earlyVmalloc

/-- `lowmem_limit`. -/
def lowmemLimit (vm : ℕ) : ℕ := wrap 32 (virtToPhys (vm - 1) + 1)

/-- `cacheid_is` for ARMv7 with `CONFIG_CPU_CACHE_VIPT`. -/
def cacheidIs (cacheid mask : ℕ) : ℕ :=
  let cacheidNever := 1
  let cacheidArchMin := 2 ||| 8 ||| 16
  0 &&& mask ||| ((2 ^ 32 - 1 - cacheidNever) &&& cacheidArchMin &&& mask &&& cacheid)

/-- There is a reason to ignore high memory: `cache_is_vipt_aliasing`. The other one needs
`is_smp`, which is false. -/
def ignoresHighmem (cacheid : ℕ) : Bool := cacheidIs cacheid 4 ≠ 0

/-- The loop variables of `sanity_check_meminfo`. -/
structure Check where
  /-- `meminfo`. -/
  mi : Meminfo
  /-- `i`. -/
  i : ℕ
  /-- `j`. -/
  j : ℕ
  /-- `highmem`. -/
  highmem : Bool

/-- One round of the loop of `sanity_check_meminfo`. -/
def checkStep (vm : ℕ) (c : Check) : Check ⊕ Check :=
  if c.i < c.mi.nrBanks then
    let b := c.mi.bank c.i
    let va := physToVirt b.start
    let highmem := c.highmem || decide (vm < va ∨ va < pageOffset)
    let b := { b with highmem := highmem }
    let bank := Function.update c.mi.bank c.j b
    if va < vm ∧ wrapSub 64 vm va < b.size then
      let low := { b with size := wrap 32 (wrapSub 64 vm va) }
      if maxBanks ≤ c.mi.nrBanks then
        .inl ⟨⟨c.mi.nrBanks, Function.update bank c.j low⟩, c.i + 1, c.j + 1, highmem⟩
      else
        let moved := move bank (c.j + 1) c.j (c.mi.nrBanks - c.i)
        let high := { moved (c.j + 1) with
          start := wrap 32 (virtToPhys (vm - 1) + 1)
          size := wrapSub 32 (moved (c.j + 1)).size (wrapSub 64 vm va)
          highmem := true }
        let bank := Function.update moved (c.j + 1) high
        .inl ⟨⟨c.mi.nrBanks + 1, Function.update bank c.j low⟩, c.i + 2, c.j + 2, true⟩
    else .inl ⟨⟨c.mi.nrBanks, bank⟩, c.i + 1, c.j + 1, highmem⟩
  else .inr c

/-- The number of banks left once those of high memory at the end are dropped. -/
def dropHighmem (bank : ℕ → Membank) : ℕ → ℕ
  | 0 => 0
  | j + 1 => if (bank j).highmem then dropHighmem bank j else j + 1

/-- `sanity_check_meminfo`, with the rounds allowed. -/
def sanityCheckMeminfo (fuel vm cacheid : ℕ) (mi : Meminfo) : Option Meminfo :=
  (loop (checkStep vm) fuel ⟨mi, 0, 0, false⟩).map fun c =>
    ⟨if c.highmem && ignoresHighmem cacheid then dropHighmem c.mi.bank c.j else c.j, c.mi.bank⟩

/-- The loop of `find_limits`: `min`, `max_low` and `max_high`. -/
def findLimitsFrom (limits : ℕ × ℕ × ℕ) : List Membank → ℕ × ℕ × ℕ
  | [] => limits
  | b :: rest =>
    let start := bankPfnStart b
    let stop := bankPfnEnd b
    findLimitsFrom
      (if start < limits.1 then start else limits.1,
        if ¬b.highmem ∧ limits.2.1 < stop then stop else limits.2.1,
        if limits.2.2 < stop then stop else limits.2.2) rest

/-- `find_limits`. -/
def findLimits (mi : Meminfo) : ℕ × ℕ × ℕ := findLimitsFrom (0xFFFFFFFF, 0, 0) mi.banks

/-- On ARMv7 the data side never aliases, so nothing ignores high memory. -/
theorem ignoresHighmem_false (cacheid : ℕ) : ignoresHighmem cacheid = false := by
  have hmask : (2 ^ 32 - 1 - 1) &&& (2 ||| 8 ||| 16) &&& 4 = 0 := by decide
  rw [ignoresHighmem, cacheidIs]
  rw [hmask, Nat.zero_and, Nat.zero_and]
  rfl

/-- `vmalloc_min` leaves some lowmem and some vmalloc space. -/
theorem vmallocMin_bounds (arg : Option ℕ) :
    pageOffset < vmallocMin arg ∧ vmallocMin arg < vmallocEnd := by
  have hend : vmallocEnd = 0xE0800000 := rfl
  have hoffset : pageOffset = 0xC0000000 := rfl
  have hreserve : 0x1000000 ≤ arg.elim 0x8000000 earlyVmalloc ∧
      arg.elim 0x8000000 earlyVmalloc ≤ vmallocEnd - (pageOffset + 0x2000000) := by
    cases arg with
    | none =>
      rw [Option.elim_none]
      omega
    | some reserve =>
      rw [Option.elim_some]
      unfold earlyVmalloc
      dsimp only
      split_ifs <;> omega
  rw [vmallocMin]
  omega

end BiscuitOS.MeminfoModel
