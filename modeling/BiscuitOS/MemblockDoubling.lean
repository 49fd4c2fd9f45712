import BiscuitOS.MemblockAllocation

/-!
# The storage of a doubled region table

`memblock_double_array` before the slab allocator takes the new array from the
free memory that `memblock_find_base` answers. It records the array in the
reserved table under the test `use_slab` only, which is false then, and the
frees behind it add no byte to that table.
-/

namespace BiscuitOS.MemblockDoubling

open MachineWord MemblockModel MemblockTable MemblockUpdate MemblockRollback MemblockSearch
open MemblockAllocation

/-- `new_size` in `memblock_double_array`. -/
def newSize (id : TableId) (m : Memblock) : ℕ :=
  wrap 32 (wrap 32 ((m.table id).max * sizeofRegion) * 2)

/-- Before the slab allocator, with resizing enabled: both tables are well formed and the
table to be doubled has a doubled size that `phys_addr_t` holds. -/
structure Growable (id : TableId) (m : Memblock) : Prop where
  /-- The memory table. -/
  memory : Spaced 0 m.memory
  /-- The reserved table. -/
  reserved : Usable m.reserved
  /-- `memblock_can_resize`. -/
  canResize : m.canResize = true
  /-- `slab_is_available()`. -/
  noSlab : m.slabAvailable = false
  /-- The table to be doubled. -/
  table : Usable (m.table id)
  /-- The size of its doubled array. -/
  size : 2 * arrayBytes (m.table id) < 2 ^ 32

/-- A doubling that reports success keeps the entries, doubles the capacity and leaves the
new array covered by the reserved table. -/
def ProtectsArray (id : TableId) (m : Memblock) : Prop :=
  ∀ depth m', memblockDoubleArray depth id m = some (0, m') →
    ((m'.table id).cnt = (m.table id).cnt ∧
      (∀ i < (m.table id).cnt, (m'.table id).regions i = (m.table id).regions i) ∧
      (m'.table id).max = 2 * (m.table id).max) ∧
    ∃ addr, (m'.table id).array = some addr ∧
      Set.Ico addr (addr + newSize id m) ⊆ bytes m'.reserved

variable {id : TableId} {m : Memblock} {t : MemblockType} {base size depth : ℕ}

/-- The new size is twice the old one. -/
theorem Growable.newSize_eq (h : Growable id m) :
    newSize id m = 2 * arrayBytes (m.table id) ∧ 0 < newSize id m ∧
      wrap 32 ((m.table id).max * sizeofRegion) = arrayBytes (m.table id) := by
  have hsize := h.size
  have hcap : 128 ≤ (m.table id).max := h.table.capacity
  have hold : wrap 32 ((m.table id).max * sizeofRegion) = arrayBytes (m.table id) := by
    change wrap 32 (arrayBytes (m.table id)) = _
    exact wrap_of_lt (by omega)
  have hnew : newSize id m = 2 * arrayBytes (m.table id) := by
    rw [newSize, hold, Nat.mul_comm, wrap_of_lt hsize]
  have hpos : 0 < arrayBytes (m.table id) := by
    rw [arrayBytes, sizeofRegion]
    omega
  exact ⟨hnew, by omega, hold⟩

/-- The array is sought among the accessible unreserved stretches of memory. -/
theorem Growable.newArrayAddr_cases (h : Growable id m) :
    ∃ addr, newArrayAddr id m = some addr ∧
      (addr = 0 ∧ (∀ q, ¬Fits m (newSize id m) 4 0 q) ∨
        addr ≠ 0 ∧ Fits m (newSize id m) 4 0 addr) := by
  obtain ⟨_, hpos, _⟩ := h.newSize_eq
  obtain ⟨addr, hfound, hcases⟩ := findBase_isGreatest h.memory h.reserved.spaced hpos
    (show 2 < 32 by decide) 0
  have hquery : newArrayAddr id m = some addr := by
    rw [newArrayAddr, h.noSlab]
    exact hfound
  refine ⟨addr, hquery, ?_⟩
  rcases hcases with hnone | hsome
  · exact .inl hnone
  · exact .inr ⟨hsome.1, hsome.2.1⟩

/-- A fit ends inside memory. -/
theorem Fits.last_lt (h : Spaced 0 m.memory) {q : ℕ} (hf : Fits m size 4 0 q) : q + size < 2 ^ 32 := by
  obtain ⟨i, hi, hin⟩ := hf
  have hlast := hin.2.1
  have hfit := h.fits i hi
  omega

/-- The first byte of a fit is not reserved. -/
theorem Fits.not_reserved {q : ℕ} (hsize : 0 < size) (hf : Fits m size 4 0 q) :
    q ∉ bytes m.reserved := by
  intro hq
  obtain ⟨i, hi, hlo, hhi⟩ := hq
  obtain ⟨_, _, hin⟩ := hf
  rcases hin.2.2.2 i hi with hc | hc
  · omega
  · omega

/-- Freeing an old array takes bytes away when the split of an entry finds a free one. -/
theorem free_subset (h : Usable t) (ht : m.table .reserved = t) {old len : ℕ} (hlen : 0 < len)
    (hlast : old + len < 2 ^ 32) (hroom : t.cnt + 1 < t.max)
    {d : TableId → Memblock → Option (ℤ × Memblock)} :
    ∃ ret t', memblockRemoveWith (memblockAddRegionWith d) .reserved old len m =
        some (ret, m.setTable .reserved t') ∧ bytes t' ⊆ bytes t ∧ t'.array = t.array := by
  by_cases hin : ∃ i, i < t.cnt ∧ Within t old len i
  · obtain ⟨i, hi, hin⟩ := hin
    obtain ⟨ret, t', -, he, hb⟩ := remove_within (d := d) ht h.spaced (Nat.zero_le 1) hlen hi hin
      (fun _ _ => hroom)
    have hsub : bytes t' ⊆ bytes t := by
      rw [hb.bytes_eq]
      exact Set.sdiff_subset
    exact ⟨ret, t', he, hsub, hb.array_eq⟩
  · push Not at hin
    refine ⟨-1, t, ?_, subset_rfl, rfl⟩
    rw [remove_outside (by rw [ht]; exact h.spaced.fits) hlast (by rw [ht]; exact hin), ← ht,
      Memblock.setTable_table]

/-- Before the slab allocator a doubling moves the table to the address found and then frees
the old array, if that was a doubled one. -/
theorem doubleArray_found (h : Growable id m) {addr : ℕ} (hfound : newArrayAddr id m = some addr)
    (hne : addr ≠ 0) :
    memblockDoubleArray (depth + 1) id m =
      (m.table id).array.elim (some (0, m.setTable id (doubledTable (m.table id) addr))) fun old =>
        (memblockRemoveWith (memblockAddRegionWith (memblockDoubleArray depth)) .reserved old
          (arrayBytes (m.table id)) (m.setTable id (doubledTable (m.table id) addr))).map
            fun result => (0, result.2) := by
  obtain ⟨_, _, hold⟩ := h.newSize_eq
  have hslab : (m.setTable id (doubledTable (m.table id) addr)).slabAvailable = false := by
    cases id <;> exact h.noSlab
  have hresize : ¬m.canResize = false := by simp [h.canResize]
  have herr : addr ≠ memblockError := hne
  rw [memblockDoubleArray, memblockDoubleArrayWith, if_neg hresize, hfound]
  simp only [Option.bind_some, if_neg herr, hslab, Bool.false_eq_true, if_false, hold]
  cases (m.table id).array with
  | none => rfl
  | some old => rfl

/-- A doubling of the reserved table itself adds no reserved byte. -/
theorem doubleArray_reserved (depth : ℕ) (h : Growable .reserved m) {addr : ℕ}
    (hfound : newArrayAddr .reserved m = some addr) (hne : addr ≠ 0)
    (hlast : addr + newSize .reserved m < 2 ^ 32) :
    ∃ t', memblockDoubleArray (depth + 1) .reserved m = some (0, m.setTable .reserved t') ∧
      bytes t' ⊆ bytes m.reserved ∧ t'.array = some addr := by
  obtain ⟨hnew, hpos, _⟩ := h.newSize_eq
  have htbl : m.table .reserved = m.reserved := rfl
  rw [htbl] at hnew
  have hsize : 2 * arrayBytes m.reserved < 2 ^ 32 := h.size
  obtain ⟨hu, hbytes, hmax⟩ := @doubledTable_usable _ h.reserved hsize addr (by omega)
  rw [doubleArray_found h hfound hne, htbl]
  cases harr : m.reserved.array with
  | none => exact ⟨_, rfl, hbytes.subset, rfl⟩
  | some old =>
    have hcap : 128 ≤ m.reserved.max := h.reserved.capacity
    have hcnt := h.reserved.spaced.cnt_le
    have hc : (doubledTable m.reserved addr).cnt = m.reserved.cnt := rfl
    obtain ⟨ret, t', he, hsub, ha⟩ := free_subset (d := memblockDoubleArray depth)
      (m := m.setTable .reserved (doubledTable m.reserved addr)) hu (Memblock.table_setTable _ _ _)
      (show 0 < arrayBytes m.reserved by omega) (h.reserved.array_fits old harr) (by omega)
    refine ⟨t', ?_, hsub.trans hbytes.subset, ha⟩
    rw [Option.elim_some, he, Option.map_some, Memblock.setTable_setTable]

/-- Dropping the last entry of a table takes bytes away. -/
theorem bytes_dropped {cnt : ℕ} (h : cnt ≤ t.cnt) : bytes { t with cnt := cnt } ⊆ bytes t := by
  intro a ha
  obtain ⟨i, hi, hin⟩ := ha
  exact ⟨i, lt_of_lt_of_le hi h, hin⟩

/-- Storing the tail of a split reserved entry adds only bytes of that entry, also when the
table has to be doubled for it or the tail is lost. -/
theorem add_tail_subset (depth : ℕ) (h : Growable .reserved m) (hd : ¬IsDummy m.reserved)
    (hc : 0 < m.reserved.cnt) (hsize : 0 < size) (hlast : base + size < 2 ^ 32) (hclear : Clear m.reserved base size) :
    ∃ ret t', memblockAddRegionWith (memblockDoubleArray (depth + 1)) .reserved base size m =
        some (ret, m.setTable .reserved t') ∧
      bytes t' ⊆ bytes m.reserved ∪ Set.Ico base (base + size) := by
  have htbl : m.table .reserved = m.reserved := rfl
  by_cases hall : ∀ k < m.reserved.cnt, Untouched m.reserved base size k
  · rw [addRegion_untouched htbl h.reserved.spaced hc hd hlast hall]
    by_cases hfull : m.reserved.max ≤ m.reserved.cnt
    · rw [if_pos hfull]
      exact ⟨-1, m.reserved, rfl, Set.subset_union_left⟩
    · have hbecomes := insertRegion_becomes h.reserved.spaced (Nat.zero_le 1) hc hd (by omega)
        hsize hlast hclear hall
      rw [if_neg hfull]
      by_cases hlastfree : m.reserved.cnt + 1 = m.reserved.max
      · have hres : Growable .reserved
            (m.setTable .reserved (insertRegion m.reserved base size)) := by
          have husable := h.reserved.becomes hbecomes
          have hsame : arrayBytes (insertRegion m.reserved base size) =
              arrayBytes m.reserved := by
            rw [arrayBytes, arrayBytes, hbecomes.max_eq]
          have hdouble : 2 * arrayBytes (insertRegion m.reserved base size) < 2 ^ 32 := by
            rw [hsame]
            exact h.size
          exact ⟨h.memory, husable, h.canResize, h.noSlab, husable, hdouble⟩
        rw [if_pos hlastfree]
        obtain ⟨addr, hfound, hcases⟩ := hres.newArrayAddr_cases
        rcases hcases with ⟨hzero, _⟩ | ⟨hne, hfits⟩
        · rw [doubleArray_of_fails (Or.inr (by rw [hfound, hzero]; rfl))]
          refine ⟨-1, { insertRegion m.reserved base size with
            cnt := wrapSub 64 (insertRegion m.reserved base size).cnt 1 }, rfl, ?_⟩
          have hcnt : wrapSub 64 (insertRegion m.reserved base size).cnt 1 ≤
              (insertRegion m.reserved base size).cnt := by
            have hroom := hbecomes.spaced.room_lt
            have hmax := hbecomes.spaced.max_le
            have hle := hbecomes.spaced.cnt_le
            have hpos : (insertRegion m.reserved base size).cnt = wrap 64 (m.reserved.cnt + 1) := rfl
            have hroom' := h.reserved.spaced.room_lt
            have hmax' := h.reserved.spaced.max_le
            rw [hpos, wrap_of_lt (by omega), wrapSub_of_le (by omega) (by omega)]
            omega
          exact (bytes_dropped hcnt).trans hbecomes.bytes_eq.subset
        · obtain ⟨t', he, hsub, _⟩ := doubleArray_reserved depth hres hfound hne
            (Fits.last_lt hres.memory hfits)
          refine ⟨0, t', ?_, hsub.trans hbecomes.bytes_eq.subset⟩
          rw [he]
          rfl
      · rw [if_neg hlastfree]
        exact ⟨0, _, rfl, hbecomes.bytes_eq.subset⟩
  · push Not at hall
    obtain ⟨k, hk, hu⟩ := hall
    obtain ⟨ret, t', _, he, hb⟩ := addRegion_touched (d := memblockDoubleArray (depth + 1)) htbl
      h.reserved.spaced (Nat.zero_le 1) hd hsize hlast hclear hk hu
    exact ⟨ret, t', he, hb.bytes_eq.subset⟩

/-- A free adds no reserved byte, whatever becomes of the tail of a split entry. -/
theorem remove_subset (depth : ℕ) (h : Growable .reserved m) (hsize : 0 < size)
    (hlast : base + size < 2 ^ 32) :
    ∃ ret t', memblockRemoveWith (memblockAddRegionWith (memblockDoubleArray (depth + 1))) .reserved
        base size m = some (ret, m.setTable .reserved t') ∧ bytes t' ⊆ bytes m.reserved := by
  have htbl : m.table .reserved = m.reserved := rfl
  have hsp := h.reserved.spaced
  by_cases hin : ∃ i, i < m.reserved.cnt ∧ Within m.reserved base size i
  · obtain ⟨i, hi, hin⟩ := hin
    by_cases hend : (m.reserved.regions i).base = base ∨
        Region.last (m.reserved.regions i) = base + size
    · obtain ⟨t', he, hb⟩ := remove_at_end
        (a := memblockAddRegionWith (memblockDoubleArray (depth + 1))) htbl hsp hsize hi hin hend
      refine ⟨0, t', he, ?_⟩
      rw [hb.bytes_eq]
      exact Set.sdiff_subset
    · have hlo : (m.reserved.regions i).base < base := by
        have := hin.1
        omega
      have hhi : base + size < Region.last (m.reserved.regions i) := by
        have := hin.2
        omega
      have hfit := hsp.fits i hi
      obtain ⟨hs, hd, hb, hclear⟩ := shortened_spec hsp hi hlo hhi
      have husable : Usable (shortened m.reserved base i) :=
        ⟨hs, h.reserved.capacity, h.reserved.array_fits⟩
      have hres : Growable .reserved (m.setTable .reserved (shortened m.reserved base i)) :=
        ⟨h.memory, husable, h.canResize, h.noSlab, husable, h.size⟩
      obtain ⟨ret, t', he, hsub⟩ := add_tail_subset depth hres hd
        (Nat.zero_lt_of_lt hi) (by omega) (by omega) hclear
      have htail : base + size + (Region.last (m.reserved.regions i) - (base + size)) =
          Region.last (m.reserved.regions i) := by omega
      have hbytes : bytes (m.setTable .reserved (shortened m.reserved base i)).reserved =
          bytes m.reserved \ Set.Ico base (Region.last (m.reserved.regions i)) := hb
      rw [htail, hbytes, bytes_split hi hlo hhi] at hsub
      refine ⟨ret, t', ?_, hsub.trans Set.sdiff_subset⟩
      rw [remove_inside htbl hsp hsize hi hlo hhi, he, Memblock.setTable_setTable]
  · push Not at hin
    refine ⟨-1, m.reserved, ?_, subset_rfl⟩
    have hout : memblockRemoveWith (memblockAddRegionWith (memblockDoubleArray (depth + 1)))
        .reserved base size m = some (-1, m) := remove_outside hsp.fits hlast hin
    rw [hout]
    rfl

/-- Where there is room for the new array, doubling succeeds and reserves no byte. -/
theorem doubleArray_unreserved (h : Growable id m) (hres : Growable .reserved m) {addr : ℕ}
    (hfound : newArrayAddr id m = some addr) (hne : addr ≠ 0)
    (hlast : addr + newSize id m < 2 ^ 32) :
    ∃ m', memblockDoubleArray 2 id m = some (0, m') ∧ (m'.table id).array = some addr ∧
      bytes m'.reserved ⊆ bytes m.reserved := by
  cases id with
  | reserved =>
    obtain ⟨t', he, hsub, harr⟩ := doubleArray_reserved 1 h hfound hne hlast
    exact ⟨m.setTable .reserved t', he, harr, hsub⟩
  | memory =>
    obtain ⟨hnew, hpos, _⟩ := h.newSize_eq
    have htbl : m.table .memory = m.memory := rfl
    rw [htbl] at hnew
    obtain ⟨hu, _, _⟩ := @doubledTable_usable _ h.table h.size addr (by rw [htbl]; omega)
    rw [doubleArray_found h hfound hne, htbl]
    cases harr : m.memory.array with
    | none => exact ⟨_, rfl, rfl, subset_rfl⟩
    | some old =>
      have hmoved : Growable .reserved (m.setTable .memory (doubledTable m.memory addr)) :=
        ⟨hu.spaced, h.reserved, h.canResize, h.noSlab, h.reserved, hres.size⟩
      have hold : old + arrayBytes m.memory < 2 ^ 32 := h.table.array_fits old harr
      have hlen : 0 < arrayBytes m.memory := by omega
      obtain ⟨ret, t', he, hsub⟩ := remove_subset 0 hmoved hlen hold
      exact ⟨(m.setTable .memory (doubledTable m.memory addr)).setTable .reserved t',
        by rw [Option.elim_some, he, Option.map_some], rfl, hsub⟩

/-- Before the slab allocator a doubling protects its new array exactly when it finds none:
when no accessible unreserved stretch of memory holds the doubled array. -/
theorem doubleArray_protects_iff (id : TableId) (m : Memblock)
    (h : ∀ id, Growable id m) :
    ProtectsArray id m ↔ ∀ q, ¬Fits m (newSize id m) 4 0 q := by
  obtain ⟨_, hpos, _⟩ := (h id).newSize_eq
  obtain ⟨addr, hfound, hcases⟩ := (h id).newArrayAddr_cases
  constructor
  · intro hprotects
    rcases hcases with ⟨_, hnone⟩ | ⟨hne, hfits⟩
    · exact hnone
    · obtain ⟨m', hrun, harr, hsub⟩ := doubleArray_unreserved (h id) (h .reserved) hfound hne
        (Fits.last_lt (h id).memory hfits)
      obtain ⟨_, addr', harr', hcover⟩ := hprotects 2 m' hrun
      have heq : addr' = addr := by
        rw [harr] at harr'
        exact (Option.some.inj harr').symm
      have hin : addr ∈ bytes m'.reserved := hcover ⟨by omega, by omega⟩
      exact absurd (hsub hin) (Fits.not_reserved hpos hfits)
  · intro hnone depth m' hrun
    have hzero : addr = 0 := by
      rcases hcases with ⟨hzero, _⟩ | ⟨_, hfits⟩
      · exact hzero
      · exact absurd hfits (hnone addr)
    cases depth with
    | zero => cases hrun
    | succ depth =>
      rw [doubleArray_of_fails (Or.inr (by rw [hfound, hzero]; rfl))] at hrun
      cases hrun

/-- The tables after boot with resizing enabled. -/
def resizableMemory : Memblock := { bootMemory with canResize := true }

/-- Both tables can be doubled. -/
theorem resizableMemory_growable (id : TableId) : Growable id resizableMemory := by
  have hres : Usable resizableMemory.reserved := bootMemory_wellFormed.2
  have hmem : Usable resizableMemory.memory :=
    ⟨bootMemory_wellFormed.1, by decide, fun a ha => by cases ha⟩
  cases id with
  | memory => exact ⟨hmem.spaced, hres, rfl, rfl, hmem, by decide⟩
  | reserved => exact ⟨hmem.spaced, hres, rfl, rfl, hres, by decide⟩

/-- The condition at these tables. -/
theorem doubleArray_protects_iff_boot :
    ProtectsArray .memory resizableMemory ↔
      ∀ q, ¬Fits resizableMemory (newSize .memory resizableMemory) 4 0 q :=
  doubleArray_protects_iff .memory resizableMemory resizableMemory_growable

/-- The memory table is doubled to the last page of memory, no byte of it is reserved, and
the next allocation hands that page out. -/
theorem doubleArray_unprotected :
    ¬ProtectsArray .memory resizableMemory ∧
      (memblockDoubleArray 1 .memory resizableMemory).bind (fun r =>
        (memblockAllocBase 1 4096 4096 0 r.2).map fun p => (r.1, r.2.memory.array, p.1)) =
        some (0, some 5238784, 5238784) := by
  constructor
  · intro hprotects
    have hrun : memblockDoubleArray 1 .memory resizableMemory = some (0,
        resizableMemory.setTable .memory (doubledTable resizableMemory.memory 5238784)) := by
      have hfound : newArrayAddr .memory resizableMemory = some 5238784 := by decide
      rw [doubleArray_found (resizableMemory_growable .memory) hfound (by decide)]
      rfl
    obtain ⟨_, addr, harr, hcover⟩ := hprotects 1 _ hrun
    have hsize : newSize .memory resizableMemory = 4096 := by decide
    rw [hsize] at hcover
    obtain ⟨i, hi, hlo, hhi⟩ := hcover ⟨le_rfl, by omega⟩
    have hdummy : i < 1 := hi
    have hzero : i = 0 := by omega
    rw [hzero] at hlo hhi
    have hlast : Region.last (resizableMemory.reserved.regions 0) = 0 := by decide
    have hhere : addr < Region.last (resizableMemory.reserved.regions 0) := hhi
    omega
  · decide

end BiscuitOS.MemblockDoubling
