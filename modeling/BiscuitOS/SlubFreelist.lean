import BiscuitOS.SlubSizes

/-!
# The list of free objects of a new slab

`new_slab` links the objects of a slab in the order of their addresses. Each
round writes into the last object only, so the pointers that are set stay.
-/

namespace BiscuitOS.SlubFreelist

open MachineWord ByteMemory SlubLayout SlubSizes

/-- A constructor writes into the bytes of its object that were asked for. -/
def Initializes (ctor : Option (ℕ → Memory → Memory)) (objsize : ℕ) : Prop :=
  ∀ init, ctor = some init → ∀ object, Within (init object) object objsize

/-- The first `j` objects from `start` on, but for the last one, hold the addresses of the next
ones. -/
def Linked (m : Memory) (start size offset j : ℕ) : Prop :=
  ∀ i, i + 1 < j → load m (start + i * size + offset) 8 = start + (i + 1) * size

variable {s : KmemCache} {objsize align size offset k start : ℕ}

/-- Setting an object up does not change a word outside of it. -/
theorem load_setupObject (hctor : Initializes s.ctor objsize) (m : Memory) {object a n : ℕ}
    (h : object + objsize ≤ a ∨ a + n ≤ object) :
    load (setupObject s m object) a n = load m a n := by
  rw [setupObject]
  cases hsome : s.ctor with
  | none => rfl
  | some init => exact load_within (hctor init hsome object) h

/-- Setting up the last object and its pointer leaves the other pointers alone. -/
theorem load_link (hl : Layout objsize align s size offset k) (hctor : Initializes s.ctor objsize)
    (m : Memory) (i last v : ℕ) (hi : i < last) :
    load (setFreepointer s (setupObject s m (start + last * size)) (start + last * size) v)
      (start + i * size + offset) 8 = load m (start + i * size + offset) 8 := by
  have hoffset : toUnsigned 64 s.offset = offset := by
    have hlt := hl.size_lt
    have hin := hl.pointer
    rw [hl.offset_eq, toUnsigned_nat (by omega)]
  have hobj := hl.objsize_le
  have hin := hl.pointer
  have hbefore : i * size + size ≤ last * size := by
    rw [← Nat.succ_mul]
    exact Nat.mul_le_mul_right size hi
  rw [setFreepointer, hoffset, load_store_apart (.inr (by omega)),
    load_setupObject hctor m (.inr (by omega))]

/-- The pointer set last is read back. -/
theorem load_setFreepointer (hl : Layout objsize align s size offset k) (m : Memory) {object v : ℕ}
    (hv : v < 2 ^ 64) : load (setFreepointer s m object v) (object + offset) 8 = v := by
  have hoffset : toUnsigned 64 s.offset = offset := by
    have hlt := hl.size_lt
    have hin := hl.pointer
    rw [hl.offset_eq, toUnsigned_nat (by omega)]
  have hbytes : (256 : ℕ) ^ 8 = 2 ^ 64 := by norm_num
  rw [setFreepointer, hoffset, load_store, hbytes, Nat.mod_eq_of_lt hv]

/-- A round of the loop links one object more. -/
theorem link_step (hl : Layout objsize align s size offset k) (hctor : Initializes s.ctor objsize)
    {m : Memory} {j : ℕ} (hfits : start + j * size < 2 ^ 64) (h : Linked m start size offset j) :
    Linked (setFreepointer s (setupObject s m (start + (j - 1) * size)) (start + (j - 1) * size)
      (start + j * size)) start size offset (j + 1) := by
  intro i hi
  by_cases hlast : i = j - 1
  · have hj : j = i + 1 := by omega
    rw [hlast, load_setFreepointer hl _ hfits, hj, Nat.add_sub_cancel]
  · rw [load_link hl hctor m i (j - 1) _ (by omega)]
    exact h i (by omega)

/-- The loop links all objects and ends with the last one. -/
theorem linkObjects_spec (hl : Layout objsize align s size offset k)
    (hctor : Initializes s.ctor objsize) (hsize : 0 < size) {objects : ℕ}
    (hfits : start + objects * size < 2 ^ 64) (fuel : ℕ) :
    ∀ (m : Memory) (j : ℕ), j ≤ objects → objects ≤ j + fuel → Linked m start size offset j →
      ∃ m', linkObjects s (start + objects * size) fuel m (start + (j - 1) * size)
          (start + j * size) = (m', start + (objects - 1) * size) ∧
        Linked m' start size offset objects := by
  have hword : toUnsigned 64 s.size = size := by
    have hlt := hl.size_lt
    rw [hl.size_eq, toUnsigned_nat (by omega)]
  induction fuel with
  | zero =>
    intro m j hle hfuel h
    have hj : j = objects := by omega
    exact ⟨m, by rw [linkObjects, hj], hj ▸ h⟩
  | succ fuel ih =>
    intro m j hle hfuel h
    rw [linkObjects]
    by_cases hend : j = objects
    · rw [if_neg (by rw [hend]; omega), hend]
      exact ⟨m, rfl, hend ▸ h⟩
    · have hless : j * size < objects * size := Nat.mul_lt_mul_of_pos_right (by omega) hsize
      have hnext : start + j * size + toUnsigned 64 s.size = start + (j + 1) * size := by
        rw [hword, Nat.succ_mul]
        omega
      rw [if_pos (by omega), hnext]
      exact ih _ (j + 1) (by omega) (by omega) (link_step hl hctor (by omega) h)

/-- The word with the order and the number of objects of the block that was granted. -/
def granted (s : KmemCache) (first : Option (ℕ × ℕ)) : ℕ := if first.isSome then s.oo else s.min

/-- The page of a new slab is described by the word that was granted. -/
theorem newSlab_page {m m' : Memory} {first second : Option (ℕ × ℕ)} {page : SlabPage}
    (h : newSlab s m first second = some (page, m')) :
    page.objects = wrap 16 (ooObjects (granted s first)) ∧ page.freelist = page.start ∧
      page.inuse = 0 ∧
      ∃ m₀, m' = setFreepointer s
        (setupObject s (linkObjects s (page.start + toUnsigned 64 (toSigned 32 (page.objects * s.size)))
          page.objects m₀ page.start page.start).1
          (linkObjects s (page.start + toUnsigned 64 (toSigned 32 (page.objects * s.size)))
            page.objects m₀ page.start page.start).2)
        (linkObjects s (page.start + toUnsigned 64 (toSigned 32 (page.objects * s.size)))
          page.objects m₀ page.start page.start).2 0 := by
  rw [newSlab, Option.map_eq_some_iff] at h
  obtain ⟨block, hblock, hpage⟩ := h
  rw [Prod.mk.injEq] at hpage
  obtain ⟨hpage, hm⟩ := hpage
  have hobjects : block.objects = wrap 16 (ooObjects (granted s first)) := by
    cases first with
    | some page =>
      rw [allocateSlab, Option.some.injEq] at hblock
      rw [← hblock]
      rfl
    | none =>
      rw [allocateSlab, Option.map_eq_some_iff] at hblock
      obtain ⟨page, _, hblock⟩ := hblock
      rw [← hblock]
      rfl
  rw [← hpage]
  exact ⟨hobjects, rfl, rfl, _, hm.symm⟩

/-- A new slab has the objects that were granted, all free, in the order of their addresses. -/
theorem newSlab_spec {oo order : ℕ} (hl : Layout objsize align s size offset k)
    (hctor : Initializes s.ctor objsize) (hsize : 0 < size) {m m' : Memory}
    {first second : Option (ℕ × ℕ)} {page : SlabPage}
    (h : newSlab s m first second = some (page, m')) (hoo : granted s first = oo)
    (hp : Packed size oo order) (hstart : page.start ≠ 0)
    (hfits : page.start + pageSize <<< order < 2 ^ 64) :
    page.objects = ooObjects oo ∧ page.freelist = page.start ∧ page.inuse = 0 ∧
      ∀ fuel, page.objects < fuel → chain m' offset fuel page.freelist =
        (List.range page.objects).map fun i => page.start + i * size := by
  obtain ⟨hobjects, hfreelist, hinuse, m₀, hm⟩ := newSlab_page h
  have hcount : page.objects = (pageSize <<< order) / size := by
    rw [hobjects, hoo, hp.objects_eq, wrap_of_lt hp.objects_lt]
  have hinside : page.objects * size ≤ pageSize <<< order := by
    rw [hcount]
    exact Nat.div_mul_le_self _ _
  have hblock : pageSize <<< order ≤ 2 ^ 22 := by
    have hlt := hp.order_lt
    have hpow : 2 ^ order ≤ 2 ^ 10 := Nat.pow_le_pow_right (by decide) (by rw [maxOrder] at hlt; omega)
    rw [Nat.shiftLeft_eq, pageSize]
    omega
  have hstop : toUnsigned 64 (toSigned 32 (page.objects * s.size)) = page.objects * size := by
    rw [hl.size_eq, wanted_eq (by omega)]
  have hpos : 0 < page.objects := by
    rw [hcount]
    exact hp.objects_pos
  obtain ⟨linked, hlink, hall⟩ := @linkObjects_spec _ _ _ _ _ _ page.start hl hctor hsize
    page.objects (by omega) page.objects m₀ 0 (by omega) (by omega)
    (fun i hi => by omega)
  rw [Nat.zero_mul, Nat.add_zero] at hlink
  rw [hstop, hlink] at hm
  refine ⟨by rw [hcount, hp.objects_eq], hfreelist, hinuse, fun fuel hfuel => ?_⟩
  have hchain := @chain_eq m' offset _ size page.objects hstart
    (fun i hi => ?_) ?_ 0 hpos fuel (by omega)
  · rw [Nat.zero_mul, Nat.add_zero, Nat.sub_zero, ← List.range_eq_range'] at hchain
    rw [hfreelist]
    exact hchain
  · rw [hm, load_link hl hctor linked i (page.objects - 1) 0 (by omega)]
    exact hall i hi
  · rw [hm, load_setFreepointer hl _ (by decide)]

/-- The layout of slabs. -/
theorem slab_layout {objsize align flags : ℕ} {ctor : Option (ℕ → Memory → Memory)}
    (hpos : 0 < objsize) (hobj : objsize < 2 ^ 31) (halign : Asked align)
    (hctor : Initializes ctor objsize) {s : KmemCache}
    (h : calculateSizes (openedCache objsize align flags ctor) = (s, true)) :
    s.align ∣ s.size ∧ (objsize : ℤ) ≤ s.size ∧
      0 ≤ s.offset ∧ s.offset + sizeofPointer ≤ s.size ∧ (s.offset ≠ 0 → (objsize : ℤ) ≤ s.offset) ∧
      (∀ oo, oo = s.oo ∨ oo = s.min → ∃ order, order < maxOrder ∧ oo = ooMake order s.size.toNat ∧
        ooOrder oo = order ∧ ooObjects oo = (pageSize <<< order) / s.size.toNat ∧
        ooObjects oo * s.size.toNat ≤ pageSize <<< order) ∧
      ∀ (m : Memory) (first second : Option (ℕ × ℕ)) (page : SlabPage) (m' : Memory),
        newSlab s m first second = some (page, m') → page.start ≠ 0 →
        page.start + pageSize <<< ooOrder (granted s first) < 2 ^ 64 →
        page.objects = ooObjects (granted s first) ∧
          (∀ fuel, page.objects < fuel → chain m' s.offset.toNat fuel page.freelist =
            (List.range page.objects).map fun i => page.start + i * s.size.toNat) ∧
          ∀ i, i < page.objects → page.start + (i + 1) * s.size.toNat ≤
            page.start + pageSize <<< ooOrder (granted s first) := by
  obtain ⟨size, offset, k, order, hl, hoo, hmin, hsame⟩ := calculateSizes_layout hpos hobj halign h
  have hle := hl.objsize_le
  have hin := hl.pointer
  have hsize : s.size.toNat = size := by rw [hl.size_eq, Int.toNat_natCast]
  have hoffset : s.offset.toNat = offset := by rw [hl.offset_eq, Int.toNat_natCast]
  have hpacked : ∀ oo order, Packed size oo order → ooObjects oo * size ≤ pageSize <<< order := by
    intro oo order hp
    rw [hp.objects_eq]
    exact Nat.div_mul_le_self _ _
  rw [hsize, hoffset]
  refine ⟨?_, ?_, ?_, ?_, ?_, ?_, ?_⟩
  · rw [hl.align_eq, hl.size_eq]
    exact_mod_cast hl.dvd
  · rw [hl.size_eq]
    exact_mod_cast hle
  · rw [hl.offset_eq]
    omega
  · rw [hl.offset_eq, hl.size_eq, sizeofPointer]
    omega
  · rw [hl.offset_eq]
    have := hl.relocated
    omega
  · intro oo hword
    rcases hword with rfl | rfl
    · exact ⟨order, hoo.order_lt, hoo.made, hoo.order_eq, hoo.objects_eq, hpacked _ _ hoo⟩
    · exact ⟨_, hmin.order_lt, hmin.made, hmin.order_eq, hmin.objects_eq, hpacked _ _ hmin⟩
  · intro m first second page m' hnew hstart hfits
    obtain ⟨order, hp⟩ : ∃ order, Packed size (granted s first) order := by
      rw [granted]
      cases first with
      | some page => exact ⟨order, hoo⟩
      | none => exact ⟨_, hmin⟩
    rw [hp.order_eq] at hfits ⊢
    obtain ⟨hobjects, _, _, hchain⟩ :=
      newSlab_spec hl (hsame ▸ hctor) (by omega) hnew rfl hp hstart hfits
    refine ⟨hobjects, hchain, fun i hi => ?_⟩
    have hall := hpacked _ _ hp
    have hrow : (i + 1) * size ≤ page.objects * size := Nat.mul_le_mul_right size hi
    rw [← hobjects] at hall
    omega

/-- Slabs of words: a page at the second page of memory is cut into its words. -/
theorem slab_layout_words : ∃ s, calculateSizes (openedCache 8 0 0 none) = (s, true) ∧
    ∃ page m', newSlab s (fun _ => 0) (some (pageSize, 0)) none = some (page, m') ∧
      page.objects = 512 ∧ chain m' s.offset.toNat 513 page.freelist =
        (List.range page.objects).map fun i => page.start + i * s.size.toNat := by
  obtain ⟨s, hs, hcount, horder⟩ : ∃ s, calculateSizes (openedCache 8 0 0 none) = (s, true) ∧
      ooObjects s.oo = 512 ∧ ooOrder s.oo = 0 := by
    refine ⟨(calculateSizes (openedCache 8 0 0 none)).1, Prod.ext rfl ?_, ?_, ?_⟩ <;> decide +kernel
  obtain ⟨page, m', hpage, hstart⟩ : ∃ page m',
      newSlab s (fun _ => 0) (some (pageSize, 0)) none = some (page, m') ∧ page.start = pageSize :=
    ⟨_, _, rfl, rfl⟩
  have hgranted : granted s (some (pageSize, 0)) = s.oo := rfl
  obtain ⟨_, _, _, _, _, _, hnew⟩ := @slab_layout 8 0 0 none
    (by decide) (by decide) (.inl rfl) (fun _ h => by cases h) _ hs
  obtain ⟨hobjects, hchain, _⟩ := hnew _ _ _ page m' hpage (by rw [hstart]; decide)
    (by rw [hstart, hgranted, horder]; decide)
  rw [hgranted, hcount] at hobjects
  exact ⟨s, hs, page, m', hpage, hobjects, hchain 513 (by rw [hobjects]; decide)⟩

end BiscuitOS.SlubFreelist
