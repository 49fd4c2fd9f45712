import BiscuitOS.BootmemModel

/-!
# The size of the boot bitmap

The bytes filled by `init_bootmem_core` against the pages counted by
`bootmem_bootmap_pages`. `PAGE_ALIGN` rounds down, so the count drops the last
partial page, and its 32-bit mask drops whole pages of larger bitmaps.
-/

namespace BiscuitOS.BootmemBootmap

open MachineWord BootmemModel

/-- The mask of `PAGE_ALIGN` keeps twenty bits above the page offset. -/
theorem pageAlign_eq {x : ℕ} (hx : x < 2 ^ 64) : pageAlign x = x / 4096 % 2 ^ 20 * 4096 := by
  have hmask : (0xFFFFF000 : ℕ) = (2 ^ 20 - 1) <<< 12 := by decide
  have hmul : x / 4096 % 2 ^ 20 * 4096 = ((x >>> 12) &&& (2 ^ 20 - 1)) <<< 12 := by
    rw [Nat.and_two_pow_sub_one_eq_mod, Nat.shiftRight_eq_div_pow, Nat.shiftLeft_eq]
  have hand (m : ℕ) : x &&& m <<< 12 = (x >>> 12 &&& m) <<< 12 := by
    apply Nat.eq_of_testBit_eq
    intro i
    by_cases hi : 12 ≤ i
    · have hsum : 12 + (i - 12) = i := by omega
      simp [Nat.testBit_shiftLeft, hi, hsum]
    · simp [Nat.testBit_shiftLeft, hi]
  have hsmall : (0xFFFFF000 : ℕ) < 2 ^ 64 := by decide
  rw [pageAlign, BitVec.toNat_and, BitVec.toNat_ofNat, BitVec.toNat_ofNat, Nat.mod_eq_of_lt hx,
    Nat.mod_eq_of_lt hsmall, hmul, ← hand (2 ^ 20 - 1), hmask]

/-- The bytes of the bitmap: whole groups of 64 pages, unless the rounding wraps. -/
theorem bootmapBytes_eq (n : ℕ) : bootmapBytes n = (wrap 64 (n + 7) / 8 + 7) / 8 * 8 := by
  have hlt : wrap 64 (n + 7) < 2 ^ 64 := wrap_lt 64 (n + 7)
  have hone : wrapSub 64 8 1 = 7 := by decide
  have hsum : wrap 64 (n + 7) / 8 + 7 < 2 ^ 64 := by omega
  have hdown : alignDown 64 (wrap 64 (n + 7) / 8 + 7) 8 =
      wrap 64 (n + 7) / 8 + 7 - (wrap 64 (n + 7) / 8 + 7) % 8 :=
    alignDown_two_pow (k := 3) hsum (by decide)
  rw [bootmapBytes, alignUp, hone, hdown]
  omega

/-- The bitmap is a 64-bit quantity. -/
theorem bootmapBytes_lt (n : ℕ) : bootmapBytes n < 2 ^ 64 := by
  have hlt : wrap 64 (n + 7) < 2 ^ 64 := wrap_lt 64 (n + 7)
  rw [bootmapBytes_eq]
  omega

/-- The pages counted for the bitmap: its whole pages, modulo the 32-bit mask. -/
theorem bootmemBootmapPages_eq (n : ℕ) :
    bootmemBootmapPages n = bootmapBytes n / 4096 % 2 ^ 20 := by
  rw [bootmemBootmapPages, pageAlign_eq (bootmapBytes_lt n), Nat.mul_div_cancel _ (by decide)]

/-- The pages hold the bytes exactly when these fill whole pages below 4 GiB. -/
theorem pages_hold_iff {bytes : ℕ} :
    bytes ≤ bytes / 4096 % 2 ^ 20 * 4096 ↔ bytes % 4096 = 0 ∧ bytes < 2 ^ 32 := by
  constructor
  · intro h
    constructor <;> omega
  · intro h
    omega

/-- The pages set aside hold the bitmap exactly for the page counts that, rounded up to 64,
are a multiple of the 32768 bits of a page, below 2^35; and for those at which `pages + 7`
wraps to an empty bitmap. -/
theorem bootmapPages_hold_iff (n : ℕ) (hn : 0 < n) (hw : n < 2 ^ 64) :
    bootmapBytes n ≤ bootmemBootmapPages n * 4096 ↔
      ((n + 63) % 32768 < 64 ∧ n + 63 < 2 ^ 35) ∨ 2 ^ 64 - 7 ≤ n := by
  rw [bootmemBootmapPages_eq, pages_hold_iff, bootmapBytes_eq]
  by_cases hwrap : n + 7 < 2 ^ 64
  · have hbytes : (wrap 64 (n + 7) / 8 + 7) / 8 * 8 = (n + 63) / 64 * 8 := by
      rw [wrap_of_lt hwrap]
      omega
    rw [hbytes]
    omega
  · have hzero : (wrap 64 (n + 7) / 8 + 7) / 8 * 8 = 0 := by
      have hmod : wrap 64 (n + 7) = n + 7 - 2 ^ 64 := by
        rw [wrap]
        omega
      rw [hmod]
      omega
    rw [hzero]
    omega

/-- A node of 32768 pages has a bitmap of exactly one page. -/
theorem bootmapPages_hold_page : bootmapBytes 32768 ≤ bootmemBootmapPages 32768 * 4096 :=
  (bootmapPages_hold_iff 32768 (by decide) (by decide)).mpr (.inl (by decide))

/-- A node of one page has a bitmap of eight bytes and no page for it. -/
theorem bootmapPages_short :
    ¬∀ n, 0 < n → n < 2 ^ 64 → bootmapBytes n ≤ bootmemBootmapPages n * 4096 := by
  intro h
  have hone := h 1 (by decide) (by decide)
  rw [bootmemBootmapPages_eq, pages_hold_iff, bootmapBytes_eq] at hone
  have hbytes : (wrap 64 (1 + 7) / 8 + 7) / 8 * 8 = 8 := by decide
  rw [hbytes] at hone
  omega

end BiscuitOS.BootmemBootmap
