import BiscuitOS.MachineWord

/-!
# Simulated physical memory

`tools/boot_arch.c` with both banks. Physical addresses are words of 32 bits,
addresses of the host words of 64 bits. The banks are two arrays of the host,
and each translation adds or subtracts an offset that is kept in an
`unsigned int`.
-/

namespace BiscuitOS.BootArch

open MachineWord

/-- `CONFIG_BANK0_START`. -/
def bank0Start : ℕ := 0x50000000

/-- `CONFIG_BANK0_SIZE`. -/
def bank0Size : ℕ := 0x10000000

/-- `MAX_BANK0_PHYS_ADDR`. -/
def maxBank0PhysAddr : ℕ := bank0Start + bank0Size

/-- `CONFIG_BANK1_START`, behind a hole of `MEMORY_HOLE_SIZE`. -/
def bank1Start : ℕ := bank0Start + bank0Size + 0x1000

/-- `CONFIG_BANK1_SIZE`. -/
def bank1Size : ℕ := 0x40000000 - 0x400000 - 0x10000000

/-- `MAX_BANK1_PHYS_ADDR`. -/
def maxBank1PhysAddr : ℕ := bank1Start + bank1Size

/-- Where the host places the arrays. -/
structure Placement where
  /-- `memory_array0`. -/
  base0 : ℕ
  /-- `memory_array1`. -/
  base1 : ℕ
  /-- The arrays are disjoint, the first one below. -/
  apart : base0 + bank0Size ≤ base1
  /-- The end of the second one is an address. -/
  fits : base1 + bank1Size < 2 ^ 64

/-- `MEM0_OFFSET`, as `virtual_memory_init` computes it. -/
def mem0Offset (m : Placement) : ℕ := wrap 32 (wrapSub 64 bank0Start m.base0)

/-- `MEM1_OFFSET`, as `virtual_memory_init` computes it. -/
def mem1Offset (m : Placement) : ℕ := wrap 32 (wrapSub 64 bank1Start m.base1)

/-- `phys_to_mem`; nothing for an address that is rejected with `NULL`. -/
def physToMem (m : Placement) (addr : ℕ) : Option ℕ :=
  if addr < bank0Start ∨ (maxBank0PhysAddr < addr ∧ addr < bank1Start) ∨ maxBank1PhysAddr < addr then
    none
  else if addr < bank1Start then some (wrapSub 64 addr (mem0Offset m))
  else some (wrapSub 64 addr (mem1Offset m))

/-- `mem_to_phys`; nothing for an address that is rejected with zero. -/
def memToPhys (m : Placement) (addr : ℕ) : Option ℕ :=
  let end0 := m.base0 + bank0Size
  let end1 := m.base1 + bank1Size
  if addr < m.base0 ∨ end1 < addr ∨ (end0 < addr ∧ addr < m.base1) then none
  else if end0 < addr then some (wrap 32 (addr + mem1Offset m))
  else some (wrap 32 (addr + mem0Offset m))

/-- A physical address of the first bank. -/
def InBank0 (p : ℕ) : Prop := bank0Start ≤ p ∧ p < bank0Start + bank0Size

/-- A physical address of the second bank. -/
def InBank1 (p : ℕ) : Prop := bank1Start ≤ p ∧ p < bank1Start + bank1Size

/-- A byte of the first array. -/
def InArray0 (m : Placement) (a : ℕ) : Prop := m.base0 ≤ a ∧ a < m.base0 + bank0Size

/-- A byte of the second array. -/
def InArray1 (m : Placement) (a : ℕ) : Prop := m.base1 ≤ a ∧ a < m.base1 + bank1Size

/-- A physical address of a bank is translated there and back, any other one is rejected. -/
def PhysRoundTrip (m : Placement) (p : ℕ) : Prop :=
  (InBank0 p ∨ InBank1 p → ∃ a, physToMem m p = some a ∧ memToPhys m a = some p) ∧
    (¬(InBank0 p ∨ InBank1 p) → physToMem m p = none)

/-- A byte of an array is translated there and back, any other address is rejected. -/
def MemRoundTrip (m : Placement) (a : ℕ) : Prop :=
  (InArray0 m a ∨ InArray1 m a → ∃ p, memToPhys m a = some p ∧ physToMem m p = some a) ∧
    (¬(InArray0 m a ∨ InArray1 m a) → memToPhys m a = none)

/-- The difference that `MEM0_OFFSET` is to keep fits it. -/
def Offset0Fits (m : Placement) : Prop := wrapSub 64 bank0Start m.base0 < 2 ^ 32

/-- The difference that `MEM1_OFFSET` is to keep fits it. -/
def Offset1Fits (m : Placement) : Prop := wrapSub 64 bank1Start m.base1 < 2 ^ 32

/-- The offset of the bank fits, and the address is neither the end of a bank nor the start of the
second one when its array begins where the first one ends. -/
def PhysRight (m : Placement) (p : ℕ) : Prop :=
  (InBank0 p → Offset0Fits m) ∧
    (InBank1 p → Offset1Fits m ∧ (p = bank1Start → m.base1 ≠ m.base0 + bank0Size)) ∧
    p ≠ maxBank0PhysAddr ∧ p ≠ maxBank1PhysAddr

/-- The offset of the array fits, that of the first array for the byte at its end, and the address
is not the end of an array unless the other array begins there. -/
def MemRight (m : Placement) (a : ℕ) : Prop :=
  (InArray0 m a → Offset0Fits m) ∧
    (InArray1 m a → if a = m.base0 + bank0Size then Offset0Fits m else Offset1Fits m) ∧
    (a = m.base0 + bank0Size → a = m.base1) ∧ a ≠ m.base1 + bank1Size

variable {m : Placement} {p q a b : ℕ}

/-- The constants as numbers. -/
theorem constants : bank0Start = 0x50000000 ∧ bank0Size = 0x10000000 ∧ bank1Start = 0x60001000 ∧
    bank1Size = 0x2FC00000 ∧ maxBank0PhysAddr = 0x60000000 ∧ maxBank1PhysAddr = 0x8FC01000 := by
  decide

/-- Addresses up to the end of the first array belong to the first bank and its end. -/
theorem memToPhys_array0 (h0 : m.base0 ≤ a) (h1 : a ≤ m.base0 + bank0Size) :
    memToPhys m a = some (bank0Start + (a - m.base0)) := by
  have hfits := m.fits
  have hapart := m.apart
  obtain ⟨c0, c1, c2, c3, c4, c5⟩ := constants
  rw [memToPhys, if_neg (by omega), if_neg (by omega), mem0Offset, wrap, wrap, wrapSub, Option.some.injEq]
  omega

/-- Addresses behind the end of the first array, up to the end of the second one, belong to the
second bank and its end. -/
theorem memToPhys_array1 (h0 : m.base1 ≤ a) (h1 : a ≤ m.base1 + bank1Size)
    (hend : m.base0 + bank0Size < a) : memToPhys m a = some (bank1Start + (a - m.base1)) := by
  have hfits := m.fits
  have hapart := m.apart
  obtain ⟨c0, c1, c2, c3, c4, c5⟩ := constants
  rw [memToPhys, if_neg (by omega), if_pos (by omega), mem1Offset, wrap, wrap, wrapSub, Option.some.injEq]
  omega

/-- Other addresses of the host are rejected. -/
theorem memToPhys_other (h : a < m.base0 ∨ m.base0 + bank0Size < a ∧ a < m.base1 ∨
    m.base1 + bank1Size < a) : memToPhys m a = none := by
  have hapart := m.apart
  rw [memToPhys, if_pos (by omega)]

/-- Other physical addresses are rejected. -/
theorem physToMem_other (h : p < bank0Start ∨ maxBank0PhysAddr < p ∧ p < bank1Start ∨
    maxBank1PhysAddr < p) : physToMem m p = none := by
  rw [physToMem, if_pos h]

/-- With an offset that fits, the first bank and its end lie in the first array. -/
theorem physToMem_bank0 (hoffset : Offset0Fits m) (h0 : bank0Start ≤ p) (h1 : p ≤ maxBank0PhysAddr) :
    physToMem m p = some (m.base0 + (p - bank0Start)) := by
  have hfits := m.fits
  have hapart := m.apart
  obtain ⟨c0, c1, c2, c3, c4, c5⟩ := constants
  rw [Offset0Fits, wrapSub] at hoffset
  rw [physToMem, if_neg (by omega), if_pos (by omega), mem0Offset, wrap, wrapSub, wrapSub, Option.some.injEq]
  omega

/-- With an offset that fits, the second bank and its end lie in the second array. -/
theorem physToMem_bank1 (hoffset : Offset1Fits m) (h0 : bank1Start ≤ p) (h1 : p ≤ maxBank1PhysAddr) :
    physToMem m p = some (m.base1 + (p - bank1Start)) := by
  have hfits := m.fits
  obtain ⟨c0, c1, c2, c3, c4, c5⟩ := constants
  rw [Offset1Fits, wrapSub] at hoffset
  rw [physToMem, if_neg (by omega), if_neg (by omega), mem1Offset, wrap, wrapSub, wrapSub, Option.some.injEq]
  omega

/-- With an offset that is cut, the first bank does not lie in the first array. -/
theorem physToMem_cut0 (hoffset : ¬Offset0Fits m) (h0 : bank0Start ≤ p) (h1 : p ≤ maxBank0PhysAddr) :
    ∃ a, physToMem m p = some a ∧ (a < m.base0 ∨ m.base0 + bank0Size < a) := by
  have hfits := m.fits
  have hapart := m.apart
  obtain ⟨c0, c1, c2, c3, c4, c5⟩ := constants
  rw [Offset0Fits, wrapSub] at hoffset
  rw [physToMem, if_neg (by omega), if_pos (by omega), mem0Offset, wrap, wrapSub, wrapSub]
  refine ⟨_, rfl, ?_⟩
  omega

/-- With an offset that is cut, the second bank does not lie in the second array. -/
theorem physToMem_cut1 (hoffset : ¬Offset1Fits m) (h0 : bank1Start ≤ p) (h1 : p ≤ maxBank1PhysAddr) :
    ∃ a, physToMem m p = some a ∧ (a < m.base1 ∨ m.base1 + bank1Size < a) := by
  have hfits := m.fits
  obtain ⟨c0, c1, c2, c3, c4, c5⟩ := constants
  rw [Offset1Fits, wrapSub] at hoffset
  rw [physToMem, if_neg (by omega), if_neg (by omega), mem1Offset, wrap, wrapSub, wrapSub]
  refine ⟨_, rfl, ?_⟩
  omega

/-- The first bank and its end are never rejected. -/
theorem physToMem_bank0_some (h0 : bank0Start ≤ p) (h1 : p ≤ maxBank0PhysAddr) :
    physToMem m p ≠ none := by
  by_cases hoffset : Offset0Fits m
  · rw [physToMem_bank0 hoffset h0 h1]
    exact Option.some_ne_none _
  · obtain ⟨a, ha, -⟩ := physToMem_cut0 hoffset h0 h1
    rw [ha]
    exact Option.some_ne_none _

/-- The second bank and its end are never rejected. -/
theorem physToMem_bank1_some (h0 : bank1Start ≤ p) (h1 : p ≤ maxBank1PhysAddr) :
    physToMem m p ≠ none := by
  by_cases hoffset : Offset1Fits m
  · rw [physToMem_bank1 hoffset h0 h1]
    exact Option.some_ne_none _
  · obtain ⟨a, ha, -⟩ := physToMem_cut1 hoffset h0 h1
    rw [ha]
    exact Option.some_ne_none _

/-- An address outside the first array, its end included, is no address of the first bank. -/
theorem memToPhys_outside0 (ha : a < m.base0 ∨ m.base0 + bank0Size < a)
    (hp : memToPhys m a = some p) : bank1Start ≤ p := by
  by_cases hin : m.base1 ≤ a ∧ a ≤ m.base1 + bank1Size
  · have hapart := m.apart
    rw [memToPhys_array1 hin.1 hin.2 (by omega), Option.some.injEq] at hp
    omega
  · rw [memToPhys_other (by omega)] at hp
    cases hp

/-- An address outside the second array, its end included, is no address of the second bank. -/
theorem memToPhys_outside1 (ha : a < m.base1 ∨ m.base1 + bank1Size < a)
    (hp : memToPhys m a = some p) : p ≤ maxBank0PhysAddr := by
  by_cases hin : m.base0 ≤ a ∧ a ≤ m.base0 + bank0Size
  · rw [memToPhys_array0 hin.1 hin.2, Option.some.injEq] at hp
    rw [maxBank0PhysAddr]
    omega
  · rw [memToPhys_other (by omega)] at hp
    cases hp

/-- A physical address makes the round trip exactly when its translation is right. -/
theorem physRoundTrip_iff : PhysRoundTrip m p ↔ PhysRight m p := by
  obtain ⟨c0, c1, c2, c3, c4, c5⟩ := constants
  have hapart := m.apart
  constructor
  · rintro ⟨htrip, hreject⟩
    refine ⟨fun h0 => ?_, fun h1 => ?_, ?_, ?_⟩
    · by_contra hoffset
      obtain ⟨a, ha, hout⟩ := physToMem_cut0 hoffset h0.1 (by have := h0.2; omega)
      obtain ⟨b, hb, hback⟩ := htrip (.inl h0)
      obtain rfl := Option.some.inj (ha.symm.trans hb)
      have hge := memToPhys_outside0 hout hback
      have := h0.2
      omega
    · obtain ⟨b, hb, hback⟩ := htrip (.inr h1)
      have hoffset : Offset1Fits m := by
        by_contra hoffset
        obtain ⟨a, ha, hout⟩ := physToMem_cut1 hoffset h1.1 (by have := h1.2; omega)
        obtain rfl := Option.some.inj (ha.symm.trans hb)
        have hle := memToPhys_outside1 hout hback
        have := h1.1
        omega
      refine ⟨hoffset, fun hstart hjoin => ?_⟩
      rw [physToMem_bank1 hoffset h1.1 (by have := h1.2; omega), Option.some.injEq] at hb
      rw [memToPhys_array0 (by omega) (by omega), Option.some.injEq] at hback
      omega
    · intro hmax
      refine physToMem_bank0_some (m := m) (by omega) (by omega) (hreject fun hin => ?_)
      simp only [InBank0, InBank1] at hin
      omega
    · intro hmax
      refine physToMem_bank1_some (m := m) (by omega) (by omega) (hreject fun hin => ?_)
      simp only [InBank0, InBank1] at hin
      omega
  · rintro ⟨hbank0, hbank1, hmax0, hmax1⟩
    constructor
    · rintro (h0 | h1)
      · obtain ⟨hlow, hhigh⟩ := id h0
        refine ⟨_, physToMem_bank0 (hbank0 h0) hlow (by omega), ?_⟩
        rw [memToPhys_array0 (by omega) (by omega), Option.some.injEq]
        omega
      · obtain ⟨hoffset, hjoin⟩ := hbank1 h1
        obtain ⟨hlow, hhigh⟩ := id h1
        refine ⟨_, physToMem_bank1 hoffset hlow (by omega), ?_⟩
        rw [memToPhys_array1 (by omega) (by omega) (by omega), Option.some.injEq]
        omega
    · intro hout
      simp only [InBank0, InBank1] at hout
      exact physToMem_other (by omega)

/-- An address of the host makes the round trip exactly when its translation is right. -/
theorem memRoundTrip_iff : MemRoundTrip m a ↔ MemRight m a := by
  obtain ⟨c0, c1, c2, c3, c4, c5⟩ := constants
  have hapart := m.apart
  have hback0 : m.base0 ≤ a → a ≤ m.base0 + bank0Size →
      ((∃ p, memToPhys m a = some p ∧ physToMem m p = some a) ↔ Offset0Fits m) := by
    intro hlow hhigh
    rw [memToPhys_array0 hlow hhigh]
    constructor
    · rintro ⟨p, hp, hback⟩
      obtain rfl := Option.some.inj hp
      by_contra hoffset
      obtain ⟨b, hb, hout⟩ := physToMem_cut0 (p := bank0Start + (a - m.base0)) hoffset (by omega)
        (by omega)
      obtain rfl := Option.some.inj (hb.symm.trans hback)
      omega
    · intro hoffset
      refine ⟨_, rfl, ?_⟩
      rw [physToMem_bank0 hoffset (by omega) (by omega), Option.some.injEq]
      omega
  have hback1 : InArray1 m a → a ≠ m.base0 + bank0Size →
      ((∃ p, memToPhys m a = some p ∧ physToMem m p = some a) ↔ Offset1Fits m) := by
    rintro ⟨hlow, hhigh⟩ hne
    rw [memToPhys_array1 hlow (by omega) (by omega)]
    constructor
    · rintro ⟨p, hp, hback⟩
      obtain rfl := Option.some.inj hp
      by_contra hoffset
      obtain ⟨b, hb, hout⟩ := physToMem_cut1 (p := bank1Start + (a - m.base1)) hoffset (by omega)
        (by omega)
      obtain rfl := Option.some.inj (hb.symm.trans hback)
      omega
    · intro hoffset
      refine ⟨_, rfl, ?_⟩
      rw [physToMem_bank1 hoffset (by omega) (by omega), Option.some.injEq]
      omega
  constructor
  · rintro ⟨htrip, hreject⟩
    refine ⟨fun h0 => (hback0 h0.1 (by have := h0.2; omega)).mp (htrip (.inl h0)), fun h1 => ?_,
      fun hend => ?_, fun hend => ?_⟩
    · split_ifs with hjoin
      · exact (hback0 (by omega) (by omega)).mp (htrip (.inr h1))
      · exact (hback1 h1 hjoin).mp (htrip (.inr h1))
    · by_contra hne
      have hnone := hreject fun hin => by
        simp only [InArray0, InArray1] at hin
        omega
      rw [memToPhys_array0 (by omega) (by omega)] at hnone
      cases hnone
    · have hnone := hreject fun hin => by
        simp only [InArray0, InArray1] at hin
        omega
      rw [memToPhys_array1 (by omega) (by omega) (by omega)] at hnone
      cases hnone
  · rintro ⟨harray0, harray1, hend0, hend1⟩
    constructor
    · rintro (h0 | h1)
      · exact (hback0 h0.1 (by have := h0.2; omega)).mpr (harray0 h0)
      · have hoffset := harray1 h1
        by_cases hjoin : a = m.base0 + bank0Size
        · rw [if_pos hjoin] at hoffset
          exact (hback0 (by omega) (by omega)).mpr hoffset
        · rw [if_neg hjoin] at hoffset
          exact (hback1 h1 hjoin).mpr hoffset
    · intro hout
      simp only [InArray0, InArray1] at hout
      exact memToPhys_other (by omega)

/-- Two physical addresses and one of the host are translated there and back, or rejected when no
bank or array has them, with images of the banks apart, exactly when the translation of each is
right. -/
theorem translation_iff (m : Placement) (p q a : ℕ) :
    (PhysRoundTrip m p ∧ PhysRoundTrip m q ∧ MemRoundTrip m a ∧
        (InBank0 p → InBank1 q → physToMem m p ≠ physToMem m q)) ↔
      PhysRight m p ∧ PhysRight m q ∧ MemRight m a := by
  constructor
  · rintro ⟨hp, hq, ha, -⟩
    exact ⟨physRoundTrip_iff.mp hp, physRoundTrip_iff.mp hq, memRoundTrip_iff.mp ha⟩
  · rintro ⟨hp, hq, ha⟩
    have hp' := physRoundTrip_iff.mpr hp
    have hq' := physRoundTrip_iff.mpr hq
    refine ⟨hp', hq', memRoundTrip_iff.mpr ha, fun h0 h1 he => ?_⟩
    obtain ⟨b, hb, hbp⟩ := hp'.1 (.inl h0)
    obtain ⟨c, hc, hcq⟩ := hq'.1 (.inr h1)
    obtain rfl := Option.some.inj (hb.symm.trans (he.trans hc))
    have hpq := Option.some.inj (hbp.symm.trans hcq)
    have hlow := h1.1
    have hhigh := h0.2
    obtain ⟨c0, c1, c2, -⟩ := constants
    omega

/-- Two arrays that the linker places back to back. -/
def backToBack : Placement := ⟨0x1000000, 0x11000000, by decide, by decide⟩

/-- The first byte of the second bank comes back as the end of the first bank, which is no address
of a bank and yet is not rejected; the end of the second array is not rejected either. -/
theorem backToBack_counterexample :
    (InBank1 bank1Start ∧ physToMem backToBack bank1Start = some 0x11000000 ∧
        memToPhys backToBack 0x11000000 = some 0x60000000) ∧
      ¬PhysRoundTrip backToBack bank1Start ∧
      (¬(InBank0 0x60000000 ∨ InBank1 0x60000000) ∧
        physToMem backToBack 0x60000000 = some 0x11000000) ∧
      (¬(InArray0 backToBack 0x40C00000 ∨ InArray1 backToBack 0x40C00000) ∧
        memToPhys backToBack 0x40C00000 = some 0x8FC01000) := by
  have hthere : physToMem backToBack bank1Start = some 0x11000000 := by decide +kernel
  have hback : memToPhys backToBack 0x11000000 = some 0x60000000 := by decide +kernel
  have hbank : InBank1 bank1Start := ⟨le_rfl, by decide⟩
  refine ⟨⟨hbank, hthere, hback⟩, fun h => ?_, ⟨?_, by decide +kernel⟩, ?_, by decide +kernel⟩
  · obtain ⟨a, ha, hp⟩ := h.1 (.inr hbank)
    obtain rfl := Option.some.inj (hthere.symm.trans ha)
    have hne := Option.some.inj (hback.symm.trans hp)
    exact absurd hne (by decide +kernel)
  · simp only [InBank0, InBank1]
    decide +kernel
  · simp only [InArray0, InArray1]
    decide +kernel

end BiscuitOS.BootArch
