import BiscuitOS.PercpuSlots

/-!
# Chunks stand on the list of their slot

What every chunk of the per-cpu allocator keeps over allocations, releases and
extensions of its map, with the bounds of its hint and of its map, and how a
chunk whose counters change is moved to the list that `pcpu_chunk_slot` names.
-/

namespace BiscuitOS.PercpuSlotted

open MachineWord ArrayWindow BucketLists BlockTiling PercpuModel PercpuBlocks PercpuHistory
open PercpuFirst PercpuSlots
open SlubLayout (fls)

/-- The hint that the scan of `pcpu_alloc_area` leaves where no block is large enough. -/
def refusal (size align : ℕ) : ℕ → ℤ → List ℤ → Option ℤ
  | _, hint, [] => some hint
  | off, hint, y :: R =>
    if y < 0 then refusal size align (off + y.natAbs) hint R
    else if y < toSigned 32 ((alignUp 32 off align : ℤ) - off + size) then
      refusal size align (off + y.natAbs) (max y hint) R
    else none

/-- The loop of `pcpu_alloc_area` returns an area unless the scan refuses. -/
theorem allocAreaFrom_refusal (c : PcpuChunk) (size align : ℕ) (hint : ℤ) (i off n : ℕ) :
    (∀ h, refusal size align off hint (window c.map i n) = some h →
        allocAreaFrom c size align hint i off n = (-1, { c with contigHint := h })) ∧
      (refusal size align off hint (window c.map i n) = none →
        0 ≤ (allocAreaFrom c size align hint i off n).1) := by
  induction n generalizing hint i off with
  | zero =>
    refine ⟨fun h hh => ?_, fun hh => by cases hh⟩
    rw [window_zero, refusal, Option.some.injEq] at hh
    rw [allocAreaFrom, hh]
  | succ n ih =>
    rw [window_succ, refusal, allocAreaFrom]
    split
    · exact ih _ _ _
    · split
      · exact ih _ _ _
      · refine ⟨fun h hh => (by cases hh), fun _ => ?_⟩
        have hstart : (takeBlock c size (decide (i + 1 = c.mapUsed)) hint i off
            ((alignUp 32 off align : ℤ) - off)).1 = alignUp 32 off align := by
          unfold takeBlock
          dsimp only
          split <;> omega
        rw [hstart]
        exact Int.natCast_nonneg _

/-- The free parts that splitting leaves around a block. -/
theorem pcpuSplitBlock_parts (c : PcpuChunk) (i : ℕ) (head tail : ℤ) :
    (head ≠ 0 → (pcpuSplitBlock c i head tail).map i = head) ∧
      (tail ≠ 0 → (pcpuSplitBlock c i head tail).map
        ((if head ≠ 0 then i + 1 else i) + 1) = tail) := by
  rw [pcpuSplitBlock]
  dsimp only
  constructor
  · intro hh
    simp only [hh, ne_eq, not_false_eq_true, if_true]
    split
    · rw [Function.update_of_ne (by omega), Function.update_of_ne (by omega), Function.update_self]
    · rw [Function.update_self]
  · intro ht
    simp only [ht, ne_eq, not_false_eq_true, if_true, Function.update_self]

/-- Giving the head away changes the block by at most twice the head. -/
theorem absorbHead_map (c : PcpuChunk) (i : ℕ) {head m : ℤ} (hx : c.map i ≤ m) (hlow : -m ≤ head)
    (hhigh : head ≤ m) : (absorbHead c i head).map i ≤ 3 * m := by
  rw [absorbHead]
  dsimp only
  rw [Function.update_self]
  by_cases hi : i = i - 1
  · split
    · dsimp only
      rw [← hi, Function.update_self]
      omega
    · dsimp only
      rw [← hi, Function.update_self]
      omega
  · split
    · dsimp only
      rw [Function.update_of_ne hi]
      omega
    · dsimp only
      rw [Function.update_of_ne hi]
      omega

/-- The hint after a block was taken is not larger than the blocks. -/
theorem takeBlock_hint {c : PcpuChunk} {size i off : ℕ} {isLast : Bool} {maxContig head m b : ℤ}
    (hmax : 0 ≤ maxContig ∧ maxContig ≤ b) (hold : 0 ≤ c.contigHint ∧ c.contigHint ≤ b)
    (hx : c.map i ≤ m) (hlow : -m ≤ head) (hhigh : head ≤ m) (hb : 3 * m ≤ b) :
    0 ≤ (takeBlock c size isLast maxContig i off head).2.contigHint ∧
      (takeBlock c size isLast maxContig i off head).2.contigHint ≤ b := by
  unfold takeBlock
  dsimp only
  generalize hc : (if decide (head ≠ 0 ∧ (belowInt head ∨ 0 < c.map (i - 1))) = true
    then absorbHead c i head else c) = chunk
  generalize hz : (if decide (head ≠ 0 ∧ (belowInt head ∨ 0 < c.map (i - 1))) = true
    then (0 : ℤ) else head) = gap
  have hchunk : chunk.map i - gap ≤ b ∧ chunk.contigHint = c.contigHint ∧ gap ≤ b := by
    rw [← hc, ← hz]
    split
    · have habs := absorbHead_map c i hx hlow hhigh
      refine ⟨by omega, ?_, by omega⟩
      rw [absorbHead]
      dsimp only
      split <;> rfl
    · exact ⟨by omega, rfl, by omega⟩
  obtain ⟨hrest, hhint, hgap⟩ := hchunk
  have htail : (if belowInt (chunk.map i - gap - size) then 0 else chunk.map i - gap - (size : ℤ)) ≤ b := by
    split <;> omega
  generalize (if belowInt (chunk.map i - gap - size) then 0
    else chunk.map i - gap - (size : ℤ)) = tail at htail ⊢
  generalize hs : (if gap ≠ 0 ∨ tail ≠ 0 then pcpuSplitBlock chunk i gap tail else chunk) = split
  have hparts : split.contigHint = c.contigHint ∧ (gap ≠ 0 → split.map i = gap) ∧
      (tail ≠ 0 → split.map ((if gap ≠ 0 then i + 1 else i) + 1) = tail) := by
    rw [← hs, ← hhint]
    split
    · exact ⟨rfl, pcpuSplitBlock_parts chunk i gap tail⟩
    · rename_i hnone
      exact ⟨rfl, fun h => absurd (Or.inl h) hnone, fun h => absurd (Or.inr h) hnone⟩
  obtain ⟨hkept, hhead, htail'⟩ := hparts
  have hfirst : 0 ≤ (if gap ≠ 0 then max (split.map ((if gap ≠ 0 then i + 1 else i) - 1)) maxContig
      else maxContig) ∧
      (if gap ≠ 0 then max (split.map ((if gap ≠ 0 then i + 1 else i) - 1)) maxContig
        else maxContig) ≤ b := by
    by_cases hg : gap ≠ 0
    · rw [if_pos hg, if_pos hg, Nat.add_sub_cancel, hhead hg]
      omega
    · rw [if_neg hg]
      exact hmax
  generalize (if gap ≠ 0 then max (split.map ((if gap ≠ 0 then i + 1 else i) - 1)) maxContig
    else maxContig) = first at hfirst ⊢
  have hsecond : 0 ≤ (if tail ≠ 0 then max (split.map ((if gap ≠ 0 then i + 1 else i) + 1)) first
      else first) ∧
      (if tail ≠ 0 then max (split.map ((if gap ≠ 0 then i + 1 else i) + 1)) first
        else first) ≤ b := by
    by_cases ht : tail ≠ 0
    · rw [if_pos ht, htail' ht]
      omega
    · rw [if_neg ht]
      exact hfirst
  generalize (if tail ≠ 0 then max (split.map ((if gap ≠ 0 then i + 1 else i) + 1)) first
    else first) = second at hsecond ⊢
  rw [hkept]
  split <;> omega

/-- The scan of a chunk leaves a hint that is not larger than the blocks. -/
theorem allocAreaFrom_hint {c : PcpuChunk} {size align i off n : ℕ} {maxContig b : ℤ}
    (hmax : 0 ≤ maxContig ∧ maxContig ≤ b) (hold : 0 ≤ c.contigHint ∧ c.contigHint ≤ b)
    (hext : off + extent (window c.map i n) ≤ 2 ^ 32) (hb : 2 ^ 34 ≤ b) :
    0 ≤ (allocAreaFrom c size align maxContig i off n).2.contigHint ∧
      (allocAreaFrom c size align maxContig i off n).2.contigHint ≤ b := by
  induction n generalizing maxContig i off with
  | zero => exact hmax
  | succ n ih =>
    rw [window_succ, extent_cons] at hext
    have hlater : off + (c.map i).natAbs + extent (window c.map (i + 1) n) ≤ 2 ^ 32 := by omega
    rw [allocAreaFrom]
    split
    · exact ih hmax hlater
    · split
      · exact ih ⟨by omega, by omega⟩ hlater
      · have hhead : alignUp 32 off align < 2 ^ 32 := alignDown_lt _ _ _
        exact takeBlock_hint (m := 2 ^ 32) hmax hold (by omega) (by omega) (by omega) (by omega)

/-- The map of a chunk, made at setup or later, with the areas that own its held blocks. -/
inductive MapSound (unitSize : ℕ) (c : PcpuChunk) (areas : List Area) : Prop
  /-- Made by `pcpu_create_chunk`. -/
  | created (sound : ChunkSound unitSize ⟨c, areas⟩) : MapSound unitSize c areas
  /-- Made at setup. -/
  | first (held free : ℕ) (within : held + free ≤ unitSize)
      (sound : FirstSound held free ⟨c, areas⟩) : MapSound unitSize c areas

/-- The counters of a map. -/
structure Counted (unitSize : ℕ) (c : PcpuChunk) : Prop where
  /-- The blocks fit the unit. -/
  extent : extent c.entries ≤ unitSize
  /-- `free_size` counts the free bytes. -/
  freeSize : c.freeSize = freeSum c.entries
  /-- `contig_hint` covers every free block. -/
  covers : ∀ y ∈ c.entries, 0 < y → y ≤ c.contigHint
  /-- Free blocks are apart. -/
  separated : c.entries.IsChain NotBothFree
  /-- The entries fit the array. -/
  room : c.mapUsed ≤ c.mapAlloc

/-- The counters of a sound map. -/
theorem MapSound.counted {unitSize : ℕ} {c : PcpuChunk} {areas : List Area}
    (h : MapSound unitSize c areas) : Counted unitSize c := by
  cases h with
  | created sound =>
    exact ⟨sound.extent.le, sound.freeSize, sound.contigHint, sound.separated, sound.room⟩
  | first held free within sound =>
    cases sound with
    | nothing none entries room sound =>
      have he := tail_entries entries
      have hext : BlockTiling.extent (tailChunk c).entries = free := sound.extent
      have hsize : c.freeSize = freeSum (tailChunk c).entries := sound.freeSize
      dsimp only at he
      refine ⟨?_, ?_, fun y hy hpos => ?_, ?_, room⟩
      · rw [he, extent_cons, Int.natAbs_zero, hext]
        omega
      · rw [he, freeSum_cons, max_self, zero_add]
        exact hsize
      · rw [he] at hy
        rcases List.mem_cons.mp hy with hzero | htail
        · omega
        · exact sound.contigHint y htail hpos
      · rw [he]
        exact (isChain_held_iff le_rfl [] _).mpr ⟨List.isChain_nil, sound.separated⟩
    | something pos sound =>
      have hext : BlockTiling.extent c.entries = held + free := sound.extent
      exact ⟨hext.trans_le within, sound.freeSize, sound.contigHint, sound.separated, sound.room⟩

/-- What every chunk keeps: a sound map, in which each live area owns a block, and a hint and a map
of bounded sizes. -/
structure ChunkKept (unitSize : ℕ) (c : PcpuChunk) (live : List Area) : Prop where
  /-- The map is sound for the live areas and, behind an entry of no bytes, for some released
  ones. -/
  map : ∃ areas, live ⊆ areas ∧ MapSound unitSize c areas
  /-- The hint is a word. -/
  hint : 0 ≤ c.contigHint ∧ c.contigHint ≤ 2 ^ 34
  /-- The map was granted. -/
  alloc : c.mapAlloc + 16 ≤ 2 ^ 30

variable {unitSize : ℕ} {c : PcpuChunk} {live : List Area}

/-- The counters of a chunk. -/
theorem ChunkKept.counted (h : ChunkKept unitSize c live) : Counted unitSize c := by
  obtain ⟨areas, -, hmap⟩ := h.map
  exact hmap.counted

/-- The free bytes of a chunk. -/
theorem Counted.free_bounds (h : Counted unitSize c) : 0 ≤ c.freeSize ∧ c.freeSize ≤ unitSize := by
  have hle := h.extent
  obtain ⟨hpos, hfree⟩ := freeSum_bounds c.entries
  rw [h.freeSize]
  omega

/-- An allocation keeps the chunk and, where it refuses, all but the hint. -/
theorem alloc_kept (hmax : unitSize + pageSize ≤ 2 ^ 31) (h : ChunkKept unitSize c live)
    {size align : ℕ} (hpos : 0 < size) (hsize : size ≤ pcpuMinUnitSize)
    (halign : ∃ k ≤ 12, align = 2 ^ k) (hroom : c.mapUsed + 2 ≤ c.mapAlloc) :
    let r := pcpuAllocArea c size align
    (r.1 < 0 → ChunkKept unitSize r.2 live) ∧
      (0 ≤ r.1 → ChunkKept unitSize r.2 (⟨r.1.toNat, size, align⟩ :: live)) := by
  intro r
  obtain ⟨areas, hlive, hmap⟩ := h.map
  have hcount := hmap.counted
  rw [pcpuMinUnitSize] at hsize
  have hlegal : Legal ⟨c, areas⟩ (.alloc size align) :=
    ⟨hpos, by rw [pageSize]; omega, halign, hroom⟩
  have hext := hcount.extent
  rw [pageSize] at hmax
  have hend := pcpuAllocArea_ends hpos hlegal.2.1 halign (by rw [pageSize]; omega)
    hcount.separated
  have hhint : 0 ≤ r.2.contigHint ∧ r.2.contigHint ≤ 2 ^ 34 :=
    allocAreaFrom_hint ⟨le_rfl, by omega⟩ h.hint
      (by rw [Nat.zero_add]; exact hext.trans (by omega)) le_rfl
  have halloc : r.2.mapAlloc = c.mapAlloc := by
    show (pcpuAllocArea c size align).2.mapAlloc = _
    generalize pcpuAllocArea c size align = q at hend
    cases hend with
    | full hint result covers => rw [result]
    | apart A B x hint isLast head parts fits gap taken => exact taken.mapAlloc
    | absorbed A B p x hint isLast head parts held fits gap pos taken =>
      exact taken.mapAlloc.trans (absorb_entries (head : ℤ) held parts).2.2.2.1
  have hstep : ∀ t, perform ⟨c, areas⟩ (.alloc size align) = some t →
      MapSound unitSize t.chunk t.live := by
    intro t ht
    cases hmap with
    | created sound =>
      obtain ⟨u, hu, hsound⟩ := alloc_sound hmax sound hlegal
      rw [hu, Option.some.injEq] at ht
      rw [← ht]
      exact .created hsound
    | first held free within sound =>
      exact .first held free within
        (first_step (by rw [pageSize]; omega) sound hlegal trivial trivial ht)
  have hnext := hstep _ rfl
  constructor
  · intro hneg
    rw [if_pos hneg] at hnext
    exact ⟨⟨areas, hlive, hnext⟩, hhint, halloc ▸ h.alloc⟩
  · intro hok
    rw [if_neg (not_lt.mpr hok)] at hnext
    exact ⟨⟨_, List.cons_subset_cons _ hlive, hnext⟩, hhint, halloc ▸ h.alloc⟩

/-- Extending a map keeps the chunk. -/
theorem extend_kept (hmax : unitSize + pageSize ≤ 2 ^ 31) (h : ChunkKept unitSize c live)
    {newAlloc : ℕ} {succeeds : Bool} (hgrant : succeeds = true → newAlloc + 16 ≤ 2 ^ 30) :
    ChunkKept unitSize (pcpuExtendAreaMap c newAlloc succeeds) live := by
  obtain ⟨areas, hsub, hmap⟩ := h.map
  obtain ⟨he, hu, ha, hf, hh⟩ := extend_entries hmap.counted.room newAlloc succeeds
  refine ⟨⟨areas, hsub, ?_⟩, by rw [hh]; exact h.hint, ?_⟩
  · cases hmap with
    | created sound =>
      refine .created (sound_congr sound he hf hh ?_)
      rw [hu]
      exact sound.room.trans ha
    | first held free within sound =>
      have hlegal : Legal ⟨c, areas⟩ (.extend newAlloc succeeds) := trivial
      rw [pageSize] at hmax
      exact .first held free within
        (first_step (by rw [pageSize]; omega) sound hlegal trivial trivial rfl)
  · rw [pcpuExtendAreaMap]
    split
    · rename_i hc
      exact hgrant hc.1
    · exact h.alloc

/-- A chunk made by `pcpu_create_chunk`. -/
theorem created_kept (hpos : 0 < unitSize) (hmax : unitSize + pageSize ≤ 2 ^ 31) :
    ChunkKept unitSize (pcpuAllocChunk unitSize) [] := by
  rw [pageSize] at hmax
  have halloc : (pcpuAllocChunk unitSize).mapAlloc = 16 := rfl
  have hhint : (pcpuAllocChunk unitSize).contigHint = unitSize := rfl
  exact ⟨⟨[], List.Subset.refl _, .created (pcpuAllocChunk_sound hpos)⟩, by omega, by omega⟩

/-- Doubling ends at a length that is large enough. -/
theorem doubleUntil_ends {bound : ℤ} (hbound : bound ≤ 2 ^ 30) (rounds : ℕ) {k : ℕ} (hk : k ≤ 26)
    (hrounds : 27 ≤ rounds + k) : ∃ r : ℕ, doubleUntil bound rounds ((16 * 2 ^ k : ℕ) : ℤ) = some (r : ℤ) ∧
      bound ≤ r ∧ 16 ∣ r := by
  induction rounds generalizing k with
  | zero => omega
  | succ rounds ih =>
    rw [doubleUntil]
    have hpow : 2 ^ k ≤ 2 ^ 26 := Nat.pow_le_pow_right (by omega) hk
    by_cases hlt : ((16 * 2 ^ k : ℕ) : ℤ) < bound
    · have hk' : k < 26 := by
        by_contra hge
        have hkeq : k = 26 := by omega
        rw [hkeq] at hlt
        omega
      have hpow' : 2 ^ k ≤ 2 ^ 25 := Nat.pow_le_pow_right (by omega) (by omega)
      have hdouble : ((16 * 2 ^ k : ℕ) : ℤ) * 2 = ((16 * 2 ^ (k + 1) : ℕ) : ℤ) := by
        rw [Nat.pow_succ]
        omega
      rw [if_pos hlt, hdouble, toSigned_of_lt (by omega) (by rw [Nat.pow_succ]; omega)]
      exact ih hk' (by omega)
    · rw [if_neg hlt]
      exact ⟨16 * 2 ^ k, rfl, by omega, Nat.dvd_mul_right _ _⟩

/-- `pcpu_need_to_extend` tells whether two more entries fit, and otherwise a length for them. -/
theorem pcpuNeedToExtend_spec (hroom : c.mapUsed ≤ c.mapAlloc) (halloc : c.mapAlloc + 16 ≤ 2 ^ 30) :
    (c.mapUsed + 2 ≤ c.mapAlloc ∧ pcpuNeedToExtend c = some 0) ∨
      c.mapAlloc < c.mapUsed + 2 ∧ ∃ r : ℕ, pcpuNeedToExtend c = some (r : ℤ) ∧
        c.mapUsed + 2 ≤ r ∧ 16 ∣ r := by
  rw [pcpuNeedToExtend]
  by_cases hfit : c.mapUsed + 2 ≤ c.mapAlloc
  · exact .inl ⟨hfit, if_pos hfit⟩
  · obtain ⟨r, hr, hle, hdvd⟩ := @doubleUntil_ends ((c.mapUsed : ℤ) + 2) (by omega) 32
      0 (by omega) (by omega)
    refine .inr ⟨by omega, r, ?_, by omega, hdvd⟩
    rw [if_neg hfit]
    exact hr

/-- Words of four and more. -/
theorem belowInt_eq_false {x : ℤ} (h : 4 ≤ x) (hx : x < 2 ^ 64) : belowInt x = false := by
  have hword := toUnsigned_of_lt (w := 64) (by omega) hx
  exact decide_eq_false (by omega)

/-- The last set bit of an `int` that is not negative. -/
theorem fls_natCast {n : ℕ} (h : n < 2 ^ 32) : fls n = Nat.size n := by
  have hword := toUnsigned_of_lt (w := 32) (Int.natCast_nonneg n) (by omega)
  rw [fls]
  congr 1
  omega

/-- Larger sizes have later slots. -/
theorem sizeToSlot_mono {a b : ℕ} (hab : a ≤ b) (hb : b < 2 ^ 32) :
    sizeToSlot a ≤ sizeToSlot b := by
  have hsize := Nat.size_le_size hab
  rw [sizeToSlot, sizeToSlot, fls_natCast (by omega), fls_natCast hb]
  omega

/-- Larger sizes have later slots, up to the unit. -/
theorem pcpuSizeToSlot_mono {a b : ℕ} (hab : a ≤ b) (hb : b ≤ unitSize) (hunit : unitSize < 2 ^ 32) :
    pcpuSizeToSlot unitSize a ≤ pcpuSizeToSlot unitSize b ∧
      pcpuSizeToSlot unitSize b < pcpuNrSlots unitSize := by
  have hle := sizeToSlot_mono hab (hb.trans_lt hunit)
  have hlast := sizeToSlot_mono hb hunit
  rw [pcpuSizeToSlot, pcpuSizeToSlot, pcpuNrSlots]
  by_cases hbu : (b : ℤ) = unitSize
  · rw [if_pos hbu]
    split <;> omega
  · rw [if_neg hbu, if_neg (by omega)]
    omega

/-- The slot of a chunk is one of the lists. -/
theorem Counted.slot_lt (h : Counted unitSize c) (hunit : unitSize < 2 ^ 32) :
    pcpuChunkSlot unitSize c < pcpuNrSlots unitSize := by
  rw [pcpuChunkSlot]
  split
  · rw [pcpuNrSlots]
    omega
  · obtain ⟨hpos, hle⟩ := h.free_bounds
    obtain ⟨n, hn⟩ := Int.eq_ofNat_of_zero_le hpos
    rw [hn] at hle ⊢
    exact (pcpuSizeToSlot_mono le_rfl (by omega) hunit).2

/-- Whether a chunk is linked. -/
def Linked (s : PcpuSystem) (id : ℕ) : Prop := id < s.count ∧ s.reserved ≠ some id

/-- Every linked chunk is on the list of its slot and on no other. -/
def Slotted (s : PcpuSystem) : Prop :=
  Placed s.slots (fun id => pcpuChunkSlot s.unitSize (s.chunks id)) (Linked s)

/-- Relocating a chunk only changes the lists. -/
theorem relocate_fields (s : PcpuSystem) (id : ℕ) (oslot : ℤ) :
    (pcpuChunkRelocate s id oslot).unitSize = s.unitSize ∧
      (pcpuChunkRelocate s id oslot).chunks = s.chunks ∧
      (pcpuChunkRelocate s id oslot).count = s.count ∧
      (pcpuChunkRelocate s id oslot).reserved = s.reserved := by
  rw [pcpuChunkRelocate]
  split <;> exact ⟨rfl, rfl, rfl, rfl⟩

/-- Relocating puts a chunk on the list of its slot when the others stand on theirs and it stands on
the list of its old slot or on none. -/
theorem relocate_slotted {s : PcpuSystem} {id : ℕ} {oslot : ℤ} {key : ℕ → ℕ} {member : ℕ → Prop}
    (h : Placed s.slots key member) (hid : id < s.count)
    (hmember : ∀ j, j ≠ id → (Linked s j ↔ member j))
    (hkey : ∀ j, member j → j ≠ id → pcpuChunkSlot s.unitSize (s.chunks j) = key j)
    (hold : member id → oslot = key id ∧ s.reserved ≠ some id)
    (hnone : ¬member id → s.reserved = some id ∨
      oslot ≠ pcpuChunkSlot s.unitSize (s.chunks id)) :
    Slotted (pcpuChunkRelocate s id oslot) := by
  rw [pcpuChunkRelocate]
  split
  · rename_i hmove
    have hlinked : ∀ j, Linked s j ↔ member j ∨ j = id := by
      intro j
      by_cases hj : j = id
      · rw [hj]
        exact ⟨fun _ => .inr rfl, fun _ => ⟨hid, hmove.1⟩⟩
      · rw [hmember j hj]
        simp only [hj, or_false]
    split
    · exact @placed_moveHead _ _ _ (fun j => pcpuChunkSlot s.unitSize (s.chunks j)) _ _ _ _ h hlinked hkey
    · exact @placed_moveTail _ _ _ (fun j => pcpuChunkSlot s.unitSize (s.chunks j)) _ _ _ _ h hlinked hkey
  · rename_i hstay
    refine h.congr (fun j => ?_) fun j hj => ?_
    · by_cases hj : j = id
      · rw [hj]
        constructor
        · intro hlinked
          by_contra hno
          rcases hnone hno with hres | hne
          · exact hlinked.2 hres
          · exact hstay ⟨hlinked.2, hne⟩
        · exact fun hm => ⟨hid, (hold hm).2⟩
      · exact hmember j hj
    · by_cases hj' : j = id
      · rw [hj'] at hj ⊢
        obtain ⟨hslot, hres⟩ := hold hj
        by_contra hne
        exact hstay ⟨hres, fun heq => hne (by
          rw [hslot] at heq
          exact_mod_cast heq.symm)⟩
      · exact hkey j hj hj'

/-- A chunk with changed counters is moved to the list of its slot. -/
theorem storeChunk_slotted {s : PcpuSystem} {id : ℕ} (h : Slotted s) (hid : id < s.count)
    (d : PcpuChunk) : Slotted (storeChunk s id d) := by
  refine @relocate_slotted _ _ _ _ (Linked s) h hid (fun j _ => Iff.rfl) (fun j _ hj => ?_)
    (fun hm => ⟨rfl, hm.2⟩) fun hno => .inl ?_
  · dsimp only
    rw [Function.update_of_ne hj]
  · by_contra hres
    exact hno ⟨hid, hres⟩

/-- A chunk that keeps its slot stays where it is. -/
theorem storeChunk_same {s : PcpuSystem} {id : ℕ} {d : PcpuChunk}
    (h : pcpuChunkSlot s.unitSize d = pcpuChunkSlot s.unitSize (s.chunks id)) :
    storeChunk s id d = { s with chunks := Function.update s.chunks id d } := by
  rw [storeChunk, pcpuChunkRelocate]
  refine if_neg fun hmove => hmove.2 ?_
  dsimp only
  rw [Function.update_self, h]

/-- A new chunk is linked. -/
theorem linkNew_slotted {s : PcpuSystem} (h : Slotted s) : Slotted (linkNew s) := by
  have hnot : ¬Linked s s.count := fun hl => absurd hl.1 (lt_irrefl _)
  refine @relocate_slotted _ _ _ _ (Linked s) h (Nat.lt_succ_self _) (fun j hj => ?_)
    (fun j hl hj => ?_) (fun hm => absurd hm hnot) fun _ => .inr (by omega)
  · rw [Linked, Linked]
    exact and_congr_left' (by dsimp only; omega)
  · dsimp only
    rw [Function.update_of_ne hj]

/-- A new chunk comes first on the last list. -/
theorem linkNew_slots {s : PcpuSystem} (h : Slotted s) (hreserved : s.reserved ≠ some s.count)
    (hunit : pcpuMinUnitSize ≤ s.unitSize ∧ s.unitSize + pageSize ≤ 2 ^ 31) :
    (linkNew s).slots = Function.update s.slots (pcpuNrSlots s.unitSize - 1)
      (s.count :: s.slots (pcpuNrSlots s.unitSize - 1)) := by
  have hnot : ∀ k, s.count ∉ s.slots k := fun k hk => absurd ((h.mem _ _).mp hk).1.1 (lt_irrefl _)
  have hsame : unlink s.slots s.count = s.slots := by
    funext k
    refine List.filter_eq_self.mpr fun j hj => decide_eq_true fun he => hnot k (he ▸ hj)
  rw [pcpuMinUnitSize, pageSize] at hunit
  have hbelow := belowInt_eq_false (x := (s.unitSize : ℤ)) (by omega) (by omega)
  have hslot : pcpuChunkSlot s.unitSize (pcpuAllocChunk s.unitSize) = pcpuNrSlots s.unitSize - 1 := by
    rw [pcpuChunkSlot, pcpuAllocChunk, hbelow]
    simp only [Bool.false_eq_true, or_self, if_false]
    rw [pcpuSizeToSlot, if_pos rfl]
  rw [linkNew, pcpuChunkRelocate]
  simp only [Function.update_self, hslot]
  rw [if_pos ⟨hreserved, by omega⟩, if_pos (by omega), moveHead, hsame]

/-- What the per-cpu allocator keeps. -/
structure Kept (w : PcpuWorld) : Prop where
  /-- The unit is large enough and an `int`. -/
  unit : pcpuMinUnitSize ≤ w.sys.unitSize ∧ w.sys.unitSize + pageSize ≤ 2 ^ 31
  /-- Every chunk is kept. -/
  chunks : ∀ id, id < w.sys.count → ChunkKept w.sys.unitSize (w.sys.chunks id) (w.live id)
  /-- The linked chunks are on the list of their slot. -/
  slotted : Slotted w.sys
  /-- The reserved chunk exists. -/
  reserved : ∀ id, w.sys.reserved = some id → id < w.sys.count
  /-- Chunks that are not there have no areas. -/
  unused : ∀ id, w.sys.count ≤ id → w.live id = []

/-- A chunk with changed counters in a world. -/
theorem store_kept {w : PcpuWorld} (h : Kept w) {id : ℕ} (hid : id < w.sys.count) {d : PcpuChunk}
    {areas : List Area} (hd : ChunkKept w.sys.unitSize d areas) :
    Kept ⟨storeChunk w.sys id d, Function.update w.live id areas⟩ := by
  obtain ⟨hunit, hchunks, hcount, hres⟩ := relocate_fields
    { w.sys with chunks := Function.update w.sys.chunks id d } id
    (pcpuChunkSlot w.sys.unitSize (w.sys.chunks id))
  have hslotted := storeChunk_slotted h.slotted hid d
  rw [storeChunk] at hslotted ⊢
  refine ⟨?_, fun j hj => ?_, hslotted, fun j hj => ?_, fun j hj => ?_⟩
  · dsimp only
    rw [hunit]
    exact h.unit
  · dsimp only at hj ⊢
    rw [hcount] at hj
    rw [hunit, hchunks]
    dsimp only
    by_cases hjid : j = id
    · rw [hjid, Function.update_self, Function.update_self]
      exact hd
    · rw [Function.update_of_ne hjid, Function.update_of_ne hjid]
      exact h.chunks j hj
  · dsimp only at hj ⊢
    rw [hres] at hj
    rw [hcount]
    exact h.reserved j hj
  · dsimp only at hj ⊢
    rw [hcount] at hj
    rw [Function.update_of_ne (by dsimp only at hj; omega)]
    exact h.unused j hj

/-- A new chunk in a world. -/
theorem link_kept {w : PcpuWorld} (h : Kept w) : Kept ⟨linkNew w.sys, w.live⟩ := by
  obtain ⟨hunit, hchunks, hcount, hres⟩ := relocate_fields
    { w.sys with
      chunks := Function.update w.sys.chunks w.sys.count (pcpuAllocChunk w.sys.unitSize)
      count := w.sys.count + 1 } w.sys.count (-1)
  have hslotted := linkNew_slotted h.slotted
  have hpos : 0 < w.sys.unitSize := lt_of_lt_of_le (by decide) h.unit.1
  rw [linkNew] at hslotted ⊢
  refine ⟨?_, fun j hj => ?_, hslotted, fun j hj => ?_, fun j hj => ?_⟩
  · dsimp only
    rw [hunit]
    exact h.unit
  · dsimp only at hj ⊢
    rw [hcount] at hj
    rw [hunit, hchunks]
    dsimp only at hj ⊢
    by_cases hjid : j = w.sys.count
    · rw [hjid, Function.update_self, h.unused _ le_rfl]
      exact created_kept hpos h.unit.2
    · rw [Function.update_of_ne hjid]
      exact h.chunks j (by omega)
  · dsimp only at hj ⊢
    rw [hres] at hj
    rw [hcount]
    exact Nat.lt_succ_of_lt (h.reserved j hj)
  · dsimp only at hj ⊢
    rw [hcount] at hj
    exact h.unused j (Nat.le_of_succ_le hj)

end BiscuitOS.PercpuSlotted
