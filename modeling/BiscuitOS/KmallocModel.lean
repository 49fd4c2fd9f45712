import BiscuitOS.SlubCacheHistory

/-!
# `kmalloc` and the caches behind it

A size leads to one of the caches of `kmalloc_caches`, by a table for small
sizes and by the highest bit for others; for sizes known to the compiler a
chain of comparisons is used instead. `kfree` finds the cache through the page
of the object. All caches share the memory and the descriptors of pages.
-/

namespace BiscuitOS.KmallocModel

open ByteMemory SlubLayout SlubCacheModel

/-- `KMALLOC_MIN_SIZE`. -/
def kmallocMinSize : ℕ := 8

/-- `KMALLOC_SHIFT_LOW`. -/
def kmallocShiftLow : ℕ := 3

/-- `SLUB_PAGE_SHIFT`. -/
def slubPageShift : ℕ := pageShift + 2

/-- `SLUB_MAX_SIZE`. -/
def slubMaxSize : ℕ := 2 * pageSize

/-- `ZERO_SIZE_PTR`. -/
def zeroSizePtr : ℕ := 16

/-- `size_index`. -/
def sizeIndex : List ℕ :=
  [3, 4, 5, 5, 6, 6, 6, 6, 1, 1, 1, 1, 7, 7, 7, 7, 2, 2, 2, 2, 2, 2, 2, 2]

/-- `size_index_elem`. -/
def sizeIndexElem (bytes : ℕ) : ℕ := (bytes - 1) / 8

/-- `get_slab`: the index in `kmalloc_caches`, none for `ZERO_SIZE_PTR`. -/
def getSlab (size : ℕ) : Option ℕ :=
  if size ≤ 192 then
    if size = 0 then none else some (sizeIndex.getD (sizeIndexElem size) 0)
  else some (fls ((size : ℤ) - 1))

/-- `kmalloc_index`. -/
def kmallocIndex (size : ℕ) : ℤ :=
  if size = 0 then 0
  else if size ≤ kmallocMinSize then kmallocShiftLow
  else if kmallocMinSize ≤ 32 ∧ size > 64 ∧ size ≤ 96 then 1
  else if kmallocMinSize ≤ 64 ∧ size > 128 ∧ size ≤ 192 then 2
  else if size ≤ 8 then 3
  else if size ≤ 16 then 4
  else if size ≤ 32 then 5
  else if size ≤ 64 then 6
  else if size ≤ 128 then 7
  else if size ≤ 256 then 8
  else if size ≤ 512 then 9
  else if size ≤ 1024 then 10
  else if size ≤ 2 * 1024 then 11
  else if size ≤ 4 * 1024 then 12
  else if size ≤ 8 * 1024 then 13
  else if size ≤ 16 * 1024 then 14
  else if size ≤ 32 * 1024 then 15
  else if size ≤ 64 * 1024 then 16
  else if size ≤ 128 * 1024 then 17
  else if size ≤ 256 * 1024 then 18
  else if size ≤ 512 * 1024 then 19
  else if size ≤ 1024 * 1024 then 20
  else if size ≤ 2048 * 1024 then 21
  else -1

/-- The object size with which `kmem_cache_init` creates a cache of `kmalloc_caches`. -/
def kmallocSize (index : ℕ) : Option ℕ :=
  if index = 1 then some 96
  else if index = 2 then some 192
  else if kmallocShiftLow ≤ index ∧ index < slubPageShift then some (1 <<< index)
  else none

/-- The highest bit of a size that is not small. -/
theorem fls_large {size : ℕ} (hlow : 192 < size) (hhigh : size ≤ slubMaxSize) :
    ∃ k, fls ((size : ℤ) - 1) = k + 1 ∧ 7 ≤ k ∧ k < 13 ∧ 2 ^ k < size ∧ size ≤ 2 ^ (k + 1) := by
  have hword : MachineWord.toUnsigned 32 ((size : ℤ) - 1) = size - 1 := by
    rw [slubMaxSize, pageSize] at hhigh
    rw [MachineWord.toUnsigned, Int.emod_eq_of_lt (by omega) (by norm_num; omega)]
    omega
  rw [fls, hword]
  have hlt : size - 1 < 2 ^ Nat.size (size - 1) := Nat.lt_size_self _
  have hpos : 0 < Nat.size (size - 1) := Nat.size_pos.mpr (by omega)
  obtain ⟨k, hk⟩ : ∃ k, Nat.size (size - 1) = k + 1 := ⟨Nat.size (size - 1) - 1, by omega⟩
  have hle : 2 ^ k ≤ size - 1 := Nat.lt_size.mp (by omega)
  rw [slubMaxSize, pageSize] at hhigh
  rw [hk] at hlt
  refine ⟨k, hk, ?_, ?_, by omega, by omega⟩
  · by_contra hless
    have hpow : 2 ^ (k + 1) ≤ 2 ^ 7 := Nat.pow_le_pow_right (by decide) (by omega)
    omega
  · by_contra hmore
    have hpow : 2 ^ 13 ≤ 2 ^ k := Nat.pow_le_pow_right (by decide) (by omega)
    omega

/-- A size above the tables is in the range of a power of two. -/
theorem kmallocIndex_large {size k : ℕ} (h7 : 7 ≤ k) (h13 : k < 13) (hlow : 2 ^ k < size)
    (hsmall : 192 < size) (hhigh : size ≤ 2 ^ (k + 1)) : kmallocIndex size = k + 1 := by
  interval_cases k
  all_goals
    norm_num at hlow hhigh
    rw [kmallocIndex, kmallocMinSize]
    repeat rw [if_neg (by omega)]
    rw [if_pos (by omega)]
    rfl

/-- The caches of `kmalloc_caches`. -/
theorem kmallocSize_eq {index objsize : ℕ} (h : kmallocSize index = some objsize) :
    index < 14 ∧ (objsize = 96 ∨ objsize = 192 ∨ 3 ≤ index ∧ objsize = 2 ^ index) := by
  rw [kmallocSize, kmallocShiftLow, slubPageShift, pageShift] at h
  split_ifs at h with h1 h2 h3
  · cases h
    exact ⟨by omega, .inl rfl⟩
  · cases h
    exact ⟨by omega, .inr (.inl rfl)⟩
  · cases h
    exact ⟨h3.2, .inr (.inr ⟨h3.1, Nat.one_shiftLeft index⟩)⟩

/-- Sizes of the table. -/
theorem getSlab_small : ∀ size < 193, 0 < size → ∃ index < 14, getSlab size = some index ∧
    kmallocIndex size = index ∧ kmallocSize index = some ((kmallocSize index).getD 0) ∧
      size ≤ (kmallocSize index).getD 0 ∧ ∀ other < 14, ∀ objsize ∈ kmallocSize other,
        size ≤ objsize → (kmallocSize index).getD 0 ≤ objsize := by
  decide +kernel

/-- `get_slab` finds the cache with the smallest objects that hold the size, and the chain of
comparisons of `kmalloc_index` finds the same one. -/
theorem getSlab_fits {size : ℕ} (hpos : 0 < size) (hmax : size ≤ slubMaxSize) :
    ∃ index objsize, getSlab size = some index ∧ kmallocIndex size = index ∧
      kmallocSize index = some objsize ∧ size ≤ objsize ∧
      ∀ other objsize', kmallocSize other = some objsize' → size ≤ objsize' →
        objsize ≤ objsize' := by
  by_cases hsmall : size < 193
  · obtain ⟨index, -, hslab, hindex, hobjsize, hle, hleast⟩ := getSlab_small size hsmall hpos
    exact ⟨index, _, hslab, hindex, hobjsize, hle, fun other objsize' hother =>
      hleast other (kmallocSize_eq hother).1 objsize' hother⟩
  · obtain ⟨k, hfls, h7, h13, hlow, hhigh⟩ := fls_large (by omega) hmax
    have hsome : kmallocSize (k + 1) = some (2 ^ (k + 1)) := by
      rw [kmallocSize, kmallocShiftLow, slubPageShift, pageShift, if_neg (by omega),
        if_neg (by omega), if_pos (by omega), Nat.one_shiftLeft]
    refine ⟨k + 1, 2 ^ (k + 1), ?_, ?_, hsome, hhigh, fun other objsize' hother hle => ?_⟩
    · rw [getSlab, if_neg (by omega), hfls]
    · rw [kmallocIndex_large h7 h13 hlow (by omega) hhigh]
      exact (Nat.cast_succ k).symm
    · obtain ⟨-, rfl | rfl | ⟨-, rfl⟩⟩ := kmallocSize_eq hother
      · omega
      · omega
      · refine Nat.pow_le_pow_right (by decide) ?_
        by_contra hless
        have hpow : 2 ^ other ≤ 2 ^ k := Nat.pow_le_pow_right (by decide) (by omega)
        omega

end BiscuitOS.KmallocModel
