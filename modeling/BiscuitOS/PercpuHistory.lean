import BiscuitOS.TransitionRun
import BiscuitOS.PercpuBlocks

/-!
# Areas of a per-cpu chunk over whole runs

A run allocates areas, frees them and extends the map. Along it the blocks
tile the unit, the counters agree with them and every live area owns one held
block, as long as no free merges with a following free block in a place where
the constant source index of the move is wrong.
-/

namespace BiscuitOS.PercpuHistory

open MachineWord TransitionRun ArrayWindow BlockTiling PercpuModel PercpuBlocks

/-- An area handed out by `pcpu_alloc_area`. -/
structure Area where
  /-- The offset returned. -/
  offset : ℕ
  /-- The size asked for. -/
  size : ℕ
  /-- The alignment asked for. -/
  align : ℕ

/-- A chunk and the areas allocated from it and not freed since. -/
structure ChunkWorld where
  /-- The chunk. -/
  chunk : PcpuChunk
  /-- The live areas. -/
  live : List Area

/-- What a chunk is asked to do. -/
inductive ChunkOp
  /-- `pcpu_alloc_area`. -/
  | alloc (size align : ℕ)
  /-- `pcpu_free_area`. -/
  | free (freeme : ℕ)
  /-- `pcpu_extend_area_map`, whose allocation succeeds as given. -/
  | extend (newAlloc : ℕ) (succeeds : Bool)

/-- Perform an operation; an area is live from its allocation to its release. -/
def perform (w : ChunkWorld) : ChunkOp → Option ChunkWorld
  | .alloc size align =>
    let result := pcpuAllocArea w.chunk size align
    some ⟨result.2, if result.1 < 0 then w.live else ⟨result.1.toNat, size, align⟩ :: w.live⟩
  | .free freeme =>
    some ⟨pcpuFreeArea w.chunk freeme, w.live.filter fun a => a.offset ≠ freeme⟩
  | .extend newAlloc succeeds => some ⟨pcpuExtendAreaMap w.chunk newAlloc succeeds, w.live⟩

/-- What callers promise: a positive size that leaves room for the alignment in an `int`, an
alignment that is a power of two up to a page, two spare slots, and frees of live offsets. -/
def Legal (w : ChunkWorld) : ChunkOp → Prop
  | .alloc size align => 0 < size ∧ size + pageSize ≤ 2 ^ 31 ∧ (∃ k ≤ 12, align = 2 ^ k) ∧
      w.chunk.mapUsed + 2 ≤ w.chunk.mapAlloc
  | .free freeme => ∃ a ∈ w.live, a.offset = freeme
  | .extend _ _ => True

/-- A free that merges with the free block after it does so where the move starts at the right
entry, at index 1, or has nothing to move. -/
def MovesRight (c : PcpuChunk) : ChunkOp → Prop
  | .free freeme =>
    let i := findBlock c freeme 0 0 c.mapUsed
    let merged := if 0 < i ∧ 0 ≤ c.map (i - 1) then i - 1 else i
    i + 1 < c.mapUsed ∧ 0 ≤ c.map (i + 1) → merged = 1 ∨ i + 2 = c.mapUsed
  | _ => True

/-- The blocks of a chunk of `unitSize` bytes and its live areas. -/
structure ChunkSound (unitSize : ℕ) (w : ChunkWorld) : Prop where
  /-- No entry in use is zero. -/
  nonzero : ∀ x ∈ w.chunk.entries, x ≠ 0
  /-- The absolute values add up to the unit. -/
  extent : (w.chunk.entries.map Int.natAbs).sum = unitSize
  /-- `free_size` is the sum of the free blocks. -/
  freeSize : w.chunk.freeSize = (w.chunk.entries.map fun x : ℤ => max x 0).sum
  /-- `contig_hint` is at least the largest free block. -/
  contigHint : ∀ x ∈ w.chunk.entries, 0 < x → x ≤ w.chunk.contigHint
  /-- No two neighbours are free. -/
  separated : w.chunk.entries.IsChain fun x y => ¬ (0 < x ∧ 0 < y)
  /-- The held blocks start at the offsets of the live areas, one block for each. -/
  starts : (w.live.map Area.offset).Perm (heldStarts 0 w.chunk.entries)
  /-- The block of a live area is at least as large as the area. -/
  covers : ∀ a ∈ w.live, ∃ x, (a.offset, x) ∈ blocks 0 w.chunk.entries ∧ x < 0 ∧
    a.size ≤ x.natAbs
  /-- Live areas are aligned. -/
  aligned : ∀ a ∈ w.live, a.align ∣ a.offset
  /-- The entries in use fit the array. -/
  room : w.chunk.mapUsed ≤ w.chunk.mapAlloc

/-- A fresh chunk is one free block. -/
theorem pcpuAllocChunk_sound {unitSize : ℕ} (hpos : 0 < unitSize) :
    ChunkSound unitSize ⟨pcpuAllocChunk unitSize, []⟩ := by
  have he : (pcpuAllocChunk unitSize).entries = [(unitSize : ℤ)] := rfl
  have hmax : max (unitSize : ℤ) 0 = unitSize := max_eq_left (Int.natCast_nonneg _)
  exact
    { nonzero := by
        rw [he]
        intro x hx
        rw [List.mem_singleton.mp hx]
        omega
      extent := by
        rw [he, List.map_singleton, List.sum_singleton, Int.natAbs_natCast]
      freeSize := by
        rw [he, List.map_singleton, List.sum_singleton, hmax]
        rfl
      contigHint := by
        rw [he]
        intro x hx _
        exact (List.mem_singleton.mp hx).le
      separated := by
        rw [he]
        exact List.isChain_singleton _
      starts := by
        rw [he, heldStarts_cons_free _ _ (Int.natCast_nonneg _)]
        exact List.Perm.nil
      covers := fun a ha => (by cases ha)
      aligned := fun a ha => (by cases ha)
      room := Nat.one_le_ofNat }

/-- Extending the map keeps the entries in use. -/
theorem extend_entries {c : PcpuChunk} (h : c.mapUsed ≤ c.mapAlloc) (newAlloc : ℕ)
    (succeeds : Bool) :
    (pcpuExtendAreaMap c newAlloc succeeds).entries = c.entries ∧
      (pcpuExtendAreaMap c newAlloc succeeds).mapUsed = c.mapUsed ∧
      c.mapAlloc ≤ (pcpuExtendAreaMap c newAlloc succeeds).mapAlloc ∧
      (pcpuExtendAreaMap c newAlloc succeeds).freeSize = c.freeSize ∧
      (pcpuExtendAreaMap c newAlloc succeeds).contigHint = c.contigHint := by
  rw [pcpuExtendAreaMap]
  split
  · rename_i hc
    refine ⟨window_congr fun k (hk : k < c.mapUsed) => ?_, rfl, hc.2.le, rfl, rfl⟩
    exact if_pos (by omega)
  · exact ⟨rfl, rfl, le_rfl, rfl, rfl⟩

/-- Bytes of an optional block. -/
theorem extent_optional (x : ℤ) : extent (optionalBlock x) = x.natAbs := by
  rw [optionalBlock]
  split
  · rw [extent_cons, extent_nil, Nat.add_zero]
  · rename_i h
    rw [not_not.mp h]
    rfl

/-- Free bytes of an optional block. -/
theorem freeSum_optional {x : ℤ} (h : 0 ≤ x) : freeSum (optionalBlock x) = x := by
  rw [optionalBlock]
  split
  · rw [freeSum_cons, freeSum_nil, max_eq_left h, add_zero]
  · rename_i hz
    rw [not_not.mp hz]
    rfl

/-- An optional free block is not held. -/
theorem heldStarts_optional {x : ℤ} (h : 0 ≤ x) (s : ℕ) : heldStarts s (optionalBlock x) = [] := by
  rw [optionalBlock]
  split
  · rw [heldStarts_cons_free _ _ h]
    rfl
  · rfl

/-- The members of an optional block. -/
theorem mem_optional {x y : ℤ} : y ∈ optionalBlock x ↔ y = x ∧ x ≠ 0 := by
  rw [optionalBlock]
  split
  · rename_i h
    rw [List.mem_singleton]
    exact ⟨fun hy => ⟨hy, h⟩, And.left⟩
  · rename_i h
    exact ⟨fun hy => (by cases hy), fun hy => absurd hy.2 h⟩

section Taking

variable {unitSize : ℕ} {w : ChunkWorld} {A B : List ℤ} {x : ℤ}

/-- Taking a block keeps the chunk sound, the new area being live. -/
theorem taken_sound (hs : ChunkSound unitSize w) (he : w.chunk.entries = A ++ x :: B) (hx : 0 < x)
    {head b tail maxContig : ℤ} {isLast : Bool} {size align : ℕ} {r : ℤ × PcpuChunk} (hhead : 0 ≤ head)
    (htail : 0 ≤ tail) (hsum : x = head + b + tail) (hsize : size ≤ b) (hpos : 0 < size)
    (hroom : w.chunk.mapUsed + 2 ≤ w.chunk.mapAlloc) (hlast : isLast = true → B = [])
    (hcovers : ∀ y ∈ A, 0 < y → y ≤ maxContig) (halign : align ∣ extent A + head.toNat)
    (ht : Taken w.chunk A B b head tail maxContig (extent A) isLast r) :
    0 ≤ r.1 ∧ ChunkSound unitSize ⟨r.2, ⟨r.1.toNat, size, align⟩ :: w.live⟩ := by
  have hoff : r.1.toNat = extent A + head.toNat := by
    rw [ht.offset]
    omega
  have hb : -b < 0 := by omega
  have hchain := (isChain_free_iff hx A B).mp (he ▸ hs.separated)
  have hentries := ht.entries
  have hcons : -b :: (optionalBlock tail ++ B) = [-b] ++ (optionalBlock tail ++ B) := rfl
  have hold : w.chunk.entries = A ++ ([x] ++ B) := he
  have hnew : r.2.entries = A ++ ((optionalBlock head ++ ([-b] ++ optionalBlock tail)) ++ B) := by
    rw [hentries, hcons]
    simp only [List.append_assoc]
  have hextent : extent (optionalBlock head ++ ([-b] ++ optionalBlock tail)) = extent [x] := by
    simp only [extent_append, extent_optional, extent_cons, extent_nil]
    omega
  have hpart : extent A + head.toNat + b.toNat + tail.toNat = extent A + x.natAbs := by omega
  refine ⟨by rw [ht.offset]; omega, ?_⟩
  exact
    { nonzero := by
        intro y hy
        rw [hentries] at hy
        simp only [List.mem_append, List.mem_cons, mem_optional] at hy
        rcases hy with hy | hy | hy | hy | hy
        · exact hs.nonzero y (he ▸ List.mem_append_left _ hy)
        · exact hy.1 ▸ hy.2
        · omega
        · exact hy.1 ▸ hy.2
        · exact hs.nonzero y (he ▸ List.mem_append_right _ (List.mem_cons_of_mem _ hy))
      extent := by
        have h := hs.extent
        rw [hold] at h
        change extent (A ++ ([x] ++ B)) = unitSize at h
        change extent r.2.entries = unitSize
        rw [hnew]
        simp only [extent_append, extent_optional, extent_cons, extent_nil] at h hextent ⊢
        omega
      freeSize := by
        have h := hs.freeSize
        change w.chunk.freeSize = freeSum w.chunk.entries at h
        change r.2.freeSize = freeSum r.2.entries
        rw [ht.freeSize, h, hnew, he]
        simp only [freeSum_append, freeSum_optional hhead, freeSum_optional htail, freeSum_cons,
          freeSum_nil]
        omega
      contigHint := by
        intro y hy hypos
        rw [hentries] at hy
        simp only [List.mem_append, List.mem_cons, mem_optional] at hy
        rcases hy with hy | hy | hy | hy | hy
        · exact (hcovers y hy hypos).trans ht.passed
        · exact hy.1 ▸ ht.headHint hy.2
        · omega
        · exact hy.1 ▸ ht.tailHint hy.2
        · cases hl : isLast with
          | true =>
            rw [hlast hl] at hy
            cases hy
          | false =>
            exact (hs.contigHint y (he ▸ List.mem_append_right _ (List.mem_cons_of_mem _ hy))
              hypos).trans (ht.oldHint hl)
      separated := by
        rw [hentries, ← List.append_assoc]
        refine (isChain_held_iff hb.le _ _).mpr ⟨?_, ?_⟩
        · rw [optionalBlock]
          split
          · exact (isChain_free_iff (by omega) A []).mpr
              ⟨hchain.1, List.isChain_nil, hchain.2.2.1, fun y hy => (by cases hy)⟩
          · rw [List.append_nil]
            exact hchain.1
        · rw [optionalBlock]
          split
          · exact (isChain_free_iff (by omega) [] B).mpr
              ⟨List.isChain_nil, hchain.2.1, fun y hy => (by cases hy), hchain.2.2.2⟩
          · exact hchain.2.1
      starts := by
        have h := hs.starts
        rw [he, heldStarts_append, Nat.zero_add, heldStarts_cons_free _ _ hx.le] at h
        rw [hentries, heldStarts_append, heldStarts_append, heldStarts_cons_held _ _ hb,
          heldStarts_append, heldStarts_optional hhead, heldStarts_optional htail,
          extent_optional, extent_optional, List.nil_append, List.nil_append, Nat.zero_add]
        have hstart : extent A + head.natAbs = r.1.toNat := by omega
        have hrest : r.1.toNat + (-b).natAbs + tail.natAbs = extent A + x.natAbs := by omega
        rw [hstart, hrest]
        exact (h.cons _).trans List.perm_middle.symm
      covers := by
        intro a ha
        rcases List.mem_cons.mp ha with rfl | ha
        · refine ⟨-b, ?_, hb, by dsimp only; omega⟩
          have hstart : r.1.toNat = 0 + extent (A ++ optionalBlock head) := by
            rw [extent_append, extent_optional]
            omega
          rw [hentries, ← List.append_assoc, blocks_append, hstart]
          exact List.mem_append_right _ List.mem_cons_self
        · obtain ⟨y, hy, hneg, hle⟩ := hs.covers a ha
          rw [hold] at hy
          rcases mem_blocks_replace hextent hy with hy | hy
          · exact ⟨y, hnew ▸ hy, hneg, hle⟩
          · obtain ⟨-, rfl⟩ := Prod.mk.inj (List.mem_singleton.mp hy)
            omega
      aligned := by
        intro a ha
        rcases List.mem_cons.mp ha with rfl | ha
        · exact hoff ▸ halign
        · exact hs.aligned a ha
      room := by
        have h1 : r.2.mapUsed = r.2.entries.length := (window_length _ _ _).symm
        have h2 : w.chunk.mapUsed = w.chunk.entries.length := (window_length _ _ _).symm
        have h3 : ∀ y, (optionalBlock y).length ≤ 1 := fun y => by
          rw [optionalBlock]
          split
          · exact le_rfl
          · exact Nat.zero_le 1
        rw [hentries] at h1
        rw [he] at h2
        have h4 := h3 head
        have h5 := h3 tail
        simp only [List.length_append, List.length_cons] at h1 h2
        rw [ht.mapAlloc]
        dsimp only
        omega }

/-- Handing the head to the held block before keeps the chunk sound. -/
theorem absorb_sound (head : ℤ) {p : ℤ} (hs : ChunkSound unitSize w)
    (he : w.chunk.entries = (A ++ [p]) ++ x :: B) (hp : p < 0) (hhead : 0 ≤ head) (hx : head < x) :
    ChunkSound unitSize ⟨absorbHead w.chunk (A.length + 1) head, w.live⟩ := by
  obtain ⟨hentries, hfree, hhint, halloc, hused⟩ := absorb_entries head hp.le he
  rw [List.append_assoc, List.singleton_append] at he
  have hchain := he ▸ hs.separated
  have hold : w.chunk.entries = A ++ ([p, x] ++ B) := he
  have hnew : (absorbHead w.chunk (A.length + 1) head).entries =
      A ++ ([p - head, x - head] ++ B) := hentries
  have hextent : extent [p - head, x - head] = extent [p, x] := by
    simp only [extent_cons, extent_nil]
    omega
  exact
    { nonzero := by
        intro y hy
        rw [hentries] at hy
        simp only [List.mem_append, List.mem_cons] at hy
        rcases hy with hy | hy | hy | hy
        · exact hs.nonzero y (he ▸ List.mem_append_left _ hy)
        · omega
        · omega
        · exact hs.nonzero y (he ▸ List.mem_append_right _
            (List.mem_cons_of_mem _ (List.mem_cons_of_mem _ hy)))
      extent := by
        have h := hs.extent
        rw [hold] at h
        change extent (A ++ ([p, x] ++ B)) = unitSize at h
        change extent (absorbHead w.chunk (A.length + 1) head).entries = unitSize
        rw [hnew, ← h]
        simp only [extent_append, hextent]
      freeSize := by
        have h := hs.freeSize
        change w.chunk.freeSize = freeSum w.chunk.entries at h
        change (absorbHead w.chunk (A.length + 1) head).freeSize =
          freeSum (absorbHead w.chunk (A.length + 1) head).entries
        rw [hfree, h, hentries, he]
        simp only [freeSum_append, freeSum_cons]
        omega
      contigHint := by
        intro y hy hypos
        change y ≤ (absorbHead w.chunk (A.length + 1) head).contigHint
        rw [hhint]
        rw [hentries] at hy
        simp only [List.mem_append, List.mem_cons] at hy
        have hmem : ∀ z, z ∈ A ∨ z = x ∨ z ∈ B → z ∈ w.chunk.entries := fun z hz => by
          rw [he, List.mem_append, List.mem_cons, List.mem_cons]
          tauto
        rcases hy with hy | hy | hy | hy
        · exact hs.contigHint y (hmem y (Or.inl hy)) hypos
        · omega
        · have := hs.contigHint x (hmem x (Or.inr (Or.inl rfl))) (by omega)
          omega
        · exact hs.contigHint y (hmem y (Or.inr (Or.inr hy))) hypos
      separated := by
        rw [hentries]
        have h := (isChain_held_iff hp.le A (x :: B)).mp hchain
        have hb := (isChain_free_iff (by omega) [] B).mp h.2
        exact (isChain_held_iff (by omega) _ _).mpr ⟨h.1,
          (isChain_free_iff (by omega) [] B).mpr hb⟩
      starts := by
        have h := hs.starts
        rw [he, heldStarts_append, heldStarts_cons_held _ _ hp, heldStarts_cons_free _ _ (by omega)]
          at h
        rw [hentries, heldStarts_append, heldStarts_cons_held _ _ (by omega),
          heldStarts_cons_free _ _ (by omega)]
        have hrest : 0 + extent A + (p - head).natAbs + (x - head).natAbs =
            0 + extent A + p.natAbs + x.natAbs := by omega
        rwa [hrest]
      covers := by
        intro a ha
        obtain ⟨y, hy, hneg, hle⟩ := hs.covers a ha
        rw [hold] at hy
        rcases mem_blocks_replace hextent hy with hy | hy
        · exact ⟨y, hnew ▸ hy, hneg, hle⟩
        · simp only [blocks, List.mem_cons, Prod.mk.injEq, List.not_mem_nil, or_false] at hy
          rcases hy with ⟨ho, rfl⟩ | ⟨-, rfl⟩
          · refine ⟨y - head, ?_, by omega, by omega⟩
            rw [ho, hnew, blocks_append]
            exact List.mem_append_right _ List.mem_cons_self
          · omega
      aligned := hs.aligned
      room := by
        change (absorbHead w.chunk (A.length + 1) head).mapUsed ≤
          (absorbHead w.chunk (A.length + 1) head).mapAlloc
        rw [halloc, hused]
        exact hs.room }

end Taking

/-- The gap up to the next aligned offset. -/
theorem head_bounds (off : ℕ) {k : ℕ} (hk : k ≤ 12) (hoff : off + 2 ^ k ≤ 2 ^ 32) :
    ∃ head : ℕ, (alignUp 32 off (2 ^ k) : ℤ) - off = head ∧ head < pageSize ∧
      2 ^ k ∣ off + head ∧ (off = 0 → head = 0) := by
  obtain ⟨hle, hlt, hdvd⟩ := alignUp_spec (w := 32) (by omega) hoff
  have hpow : 2 ^ k ≤ pageSize := Nat.pow_le_pow_right (by omega) hk
  refine ⟨alignUp 32 off (2 ^ k) - off, by omega, by omega, ?_, fun hz => ?_⟩
  · rwa [Nat.add_sub_cancel' hle]
  · subst hz
    rw [Nat.zero_add] at hlt
    rw [Nat.sub_zero]
    exact Nat.eq_zero_of_dvd_of_lt hdvd hlt

/-- A block large enough for an area behind its head, as the scan of `pcpu_alloc_area` takes it. -/
structure Fits (A B : List ℤ) (x hint : ℤ) (isLast : Bool) (size align head : ℕ) : Prop where
  /-- The block is free. -/
  free : 0 < x
  /-- It is large enough. -/
  le : (head : ℤ) + size ≤ x
  /-- The area is aligned. -/
  aligned : align ∣ extent A + head
  /-- The gap is smaller than a page. -/
  head_lt : head < pageSize
  /-- There is no gap at the start. -/
  first : extent A = 0 → head = 0
  /-- Whether it is the last block. -/
  last : isLast = true → B = []
  /-- The hint covers the blocks before. -/
  covers : ∀ y ∈ A, 0 < y → y ≤ hint

/-- What `pcpu_alloc_area` does. -/
inductive AllocEnd (c : PcpuChunk) (size align : ℕ) (r : ℤ × PcpuChunk) : Prop
  /-- No block is large enough. -/
  | full (hint : ℤ) (result : r = (-1, { c with contigHint := hint }))
      (covers : ∀ y ∈ c.entries, 0 < y → y ≤ hint) : AllocEnd c size align r
  /-- A block is taken, and its head stays a block. -/
  | apart (A B : List ℤ) (x hint : ℤ) (isLast : Bool) (head : ℕ) (parts : c.entries = A ++ x :: B)
      (fits : Fits A B x hint isLast size align head)
      (gap : smallHead size align 0 c.entries = false)
      (taken : Taken c A B (x - head - tailOf x head size) head (tailOf x head size) hint (extent A)
        isLast r) : AllocEnd c size align r
  /-- A block is taken, and its small head goes to the held block before. -/
  | absorbed (A B : List ℤ) (p x hint : ℤ) (isLast : Bool) (head : ℕ)
      (parts : c.entries = (A ++ [p]) ++ x :: B) (held : p ≤ 0)
      (fits : Fits (A ++ [p]) B x hint isLast size align head)
      (gap : smallHead size align 0 c.entries = true) (pos : 0 < head)
      (taken : Taken (absorbHead c (A.length + 1) head) (A ++ [p - head]) B
        (x - head - 0 - tailOf (x - head) 0 size) 0 (tailOf (x - head) 0 size) hint
        (extent (A ++ [p - (head : ℤ)])) isLast r) : AllocEnd c size align r

/-- `pcpu_alloc_area` on a map of separated blocks that is not too large. -/
theorem pcpuAllocArea_ends {c : PcpuChunk} {size align : ℕ} (hpos : 0 < size)
    (hsize : size + pageSize ≤ 2 ^ 31) (halign : ∃ k ≤ 12, align = 2 ^ k)
    (hext : extent c.entries + pageSize ≤ 2 ^ 31) (hsep : c.entries.IsChain NotBothFree) :
    AllocEnd c size align (pcpuAllocArea c size align) := by
  obtain ⟨k, hk, rfl⟩ := halign
  have hscan := allocAreaFrom_scans c size (2 ^ k) 0 0 0 c.mapUsed
  rw [pcpuAllocArea]
  generalize allocAreaFrom c size (2 ^ k) 0 0 0 c.mapUsed = r at hscan ⊢
  cases hscan with
  | full hint result passed covers => exact .full hint result covers
  | taken A B x hint parts result free fits passed covers gap =>
    have he : c.entries = A ++ x :: B := parts
    have hlist : window c.map 0 c.mapUsed = c.entries := rfl
    have hsum : extent A + x.natAbs + extent B = extent c.entries := by
      rw [he, extent_append, extent_cons]
      omega
    have hpow : 2 ^ k ≤ pageSize := Nat.pow_le_pow_right (by omega) hk
    obtain ⟨head, hhead, hpage, hdvd, hfirst⟩ := head_bounds (extent A) hk (by omega)
    rw [Nat.zero_add, Nat.zero_add] at result
    rw [Nat.zero_add] at fits
    rw [Nat.zero_add, hhead, hlist] at gap
    rw [hhead] at result fits
    have hcast : ((head : ℤ) + (size : ℤ)) = ((head + size : ℕ) : ℤ) := by omega
    rw [hcast, toSigned_of_lt (by omega) (by omega)] at fits
    have hx : 0 < x := by omega
    have hlast : decide (A.length + 1 = c.mapUsed) = true → B = [] := fun hd => by
      have hl := mapUsed_of_entries he
      have := of_decide_eq_true hd
      exact List.length_eq_zero_iff.mp (by omega)
    have hfits : Fits A B x hint (decide (A.length + 1 = c.mapUsed)) size (2 ^ k) head :=
      ⟨hx, by omega, hdvd, hpage, hfirst, hlast, covers⟩
    by_cases habs : (head : ℤ) ≠ 0 ∧ (belowInt head ∨ 0 < c.map (A.length - 1))
    · rcases List.eq_nil_or_concat A with rfl | ⟨A', p, rfl⟩
      · exact absurd (hfirst rfl) (by omega)
      rw [List.concat_eq_append] at *
      have hp : p ≤ 0 := by
        have hchain := (isChain_free_iff hx (A' ++ [p]) B).mp (he ▸ hsep)
        exact hchain.2.2.1 p (by rw [List.getLast?_append, List.getLast?_singleton]; rfl)
      have hmap := map_of_entries (A := A') (x := p) (B := x :: B) (by rw [he, List.append_assoc]; rfl)
      have hlen : (A' ++ [p]).length = A'.length + 1 := by
        rw [List.length_append, List.length_singleton]
      have hlen' : (A' ++ [p - (head : ℤ)]).length = A'.length + 1 := by
        rw [List.length_append, List.length_singleton]
      have hsmall : belowInt head = true := by
        rcases habs.2 with hb | hb
        · exact hb
        · rw [hlen, Nat.add_sub_cancel, hmap] at hb
          omega
      have hstart : extent (A' ++ [p]) + head = extent (A' ++ [p - (head : ℤ)]) := by
        simp only [extent_append, extent_cons, extent_nil]
        omega
      have hentries := (absorb_entries (head : ℤ) hp he).1
      have hnew : (absorbHead c (A'.length + 1) head).entries =
          (A' ++ [p - (head : ℤ)]) ++ (x - head) :: B := by
        rw [hentries, List.append_assoc]
        rfl
      rw [takeBlock_absorbs habs (Int.natCast_nonneg head), Int.toNat_natCast, hstart, hlen,
        ← hlen'] at result
      have ht := takeBlock_apart size (extent (A' ++ [p - (head : ℤ)]))
        (decide ((A' ++ [p]).length + 1 = c.mapUsed)) hint hnew (fun hz => absurd rfl hz)
      rw [hlen'] at ht result
      rw [hlen] at ht
      rw [hlen] at hfits
      rw [hsmall, Bool.and_true, decide_eq_true habs.1] at gap
      exact .absorbed A' B p x hint _ head he hp hfits gap (by omega) (by rwa [result])
    · have hkeep : (head : ℤ) ≠ 0 → belowInt head = false ∧ c.map (A.length - 1) ≤ 0 := by
        intro hz
        have hsmall := not_or.mp fun hc => habs ⟨hz, hc⟩
        exact ⟨Bool.eq_false_iff.mpr hsmall.1, not_lt.mp hsmall.2⟩
      have ht := takeBlock_apart size (extent A) (decide (A.length + 1 = c.mapUsed)) hint he hkeep
      refine .apart A B x hint _ head he hfits (gap.trans ?_) (by rwa [result])
      by_cases hz : (head : ℤ) = 0
      · rw [decide_eq_false (not_not.mpr hz), Bool.false_and]
      · rw [(hkeep hz).1, Bool.and_false]

/-- The step of an allocation. -/
theorem alloc_sound {unitSize : ℕ} (hmax : unitSize + pageSize ≤ 2 ^ 31) {w : ChunkWorld}
    {size align : ℕ} (hs : ChunkSound unitSize w) (hlegal : Legal w (.alloc size align)) :
    ∃ t, perform w (.alloc size align) = some t ∧ ChunkSound unitSize t := by
  obtain ⟨hpos, hsize, halign, hroom⟩ := hlegal
  refine ⟨_, rfl, ?_⟩
  have hext : extent w.chunk.entries = unitSize := hs.extent
  have hend := pcpuAllocArea_ends hpos hsize halign (hext.symm ▸ hmax) hs.separated
  generalize pcpuAllocArea w.chunk size align = r at hend ⊢
  cases hend with
  | full hint result covers =>
    rw [result]
    exact { hs with contigHint := covers }
  | apart A B x hint isLast head parts fits gap taken =>
    obtain ⟨htail, htail'⟩ := tailOf_bounds fits.le
    have haligned : align ∣ extent A + (head : ℤ).toNat := fits.aligned
    have hsound := taken_sound hs parts fits.free (Int.natCast_nonneg head) htail (by omega)
      (by omega) hpos hroom fits.last fits.covers haligned taken
    rw [if_neg (by omega)]
    exact hsound.2
  | absorbed A B p x hint isLast head parts held fits gap pos taken =>
    have hle := fits.le
    have hp : p < 0 := by
      have hne := hs.nonzero p (by
        rw [parts]
        exact List.mem_append_left _ (List.mem_append_right _ (List.mem_singleton_self p)))
      omega
    have hgrown := absorb_sound (head : ℤ) hs parts hp (Int.natCast_nonneg head) (by omega)
    obtain ⟨hentries, -, -, halloc, hused⟩ := absorb_entries (head : ℤ) held parts
    have hnew : (absorbHead w.chunk (A.length + 1) head).entries =
        (A ++ [p - (head : ℤ)]) ++ (x - head) :: B := by
      rw [hentries, List.append_assoc]
      rfl
    have hstart : extent (A ++ [p]) + head = extent (A ++ [p - (head : ℤ)]) := by
      simp only [extent_append, extent_cons, extent_nil]
      omega
    have hfit : 0 + (size : ℤ) ≤ x - head := by omega
    obtain ⟨htail, htail'⟩ := tailOf_bounds hfit
    have haligned : align ∣ extent (A ++ [p - (head : ℤ)]) + (0 : ℤ).toNat := by
      rw [Int.toNat_zero, Nat.add_zero, ← hstart]
      exact fits.aligned
    have hsound := taken_sound hgrown hnew (by omega) le_rfl htail (by omega) (by omega) hpos
      (by rw [halloc, hused]; exact hroom) fits.last
      (fun y hy hypos => by
        rw [List.mem_append, List.mem_singleton] at hy
        rcases hy with hy | hy
        · exact fits.covers y (List.mem_append_left _ hy) hypos
        · omega)
      haligned taken
    rw [if_neg (by omega)]
    exact hsound.2

/-- A held block and the free blocks `P` before and `Q` after it became one free block: the
chunk stays sound without the area of that block. -/
theorem freed_sound {unitSize : ℕ} {w : ChunkWorld} {A P Q B : List ℤ} {x y : ℤ} {c : PcpuChunk}
    (hs : ChunkSound unitSize w) (he : w.chunk.entries = A ++ (P ++ ([x] ++ (Q ++ B)))) (hx : x < 0)
    (hP : ∀ p ∈ P, 0 < p) (hQ : ∀ q ∈ Q, 0 < q) (hy : y = freeSum P - x + freeSum Q)
    (hentries : c.entries = A ++ y :: B) (hfree : c.freeSize = w.chunk.freeSize - x)
    (hhint : c.contigHint = max y w.chunk.contigHint) (hroom : c.mapUsed ≤ c.mapAlloc)
    (hbefore : ∀ z ∈ A.getLast?, z ≤ 0) (hafter : ∀ z ∈ B.head?, z ≤ 0) :
    ChunkSound unitSize
      ⟨c, w.live.filter fun a => a.offset ≠ extent A + extent P⟩ := by
  have hp := freeSum_of_free hP
  have hq := freeSum_of_free hQ
  have hypos : 0 < y := by omega
  have hold : w.chunk.entries = A ++ ((P ++ ([x] ++ Q)) ++ B) := by
    rw [he]
    simp only [List.append_assoc]
  have hnew : c.entries = A ++ ([y] ++ B) := hentries
  have hextent : extent [y] = extent (P ++ ([x] ++ Q)) := by
    simp only [extent_append, extent_cons, extent_nil]
    omega
  have hmem : ∀ z, z ∈ A ∨ z ∈ B → z ∈ w.chunk.entries := fun z hz => by
    rw [hold]
    simp only [List.mem_append]
    tauto
  have hchain : A.IsChain NotBothFree ∧ B.IsChain NotBothFree := by
    have h := he ▸ hs.separated
    exact ⟨h.left_of_append, h.right_of_append.right_of_append.right_of_append.right_of_append⟩
  have hstarts : heldStarts 0 w.chunk.entries =
      heldStarts 0 A ++ (extent A + extent P) :: heldStarts (extent A + y.natAbs) B := by
    have hsum : extent A + extent P + extent [x] + extent Q = extent A + y.natAbs := by
      simp only [extent_cons, extent_nil]
      omega
    rw [he]
    simp only [heldStarts_append, heldStarts_of_free _ hP, heldStarts_of_free _ hQ, Nat.zero_add,
      List.nil_append, heldStarts_cons_held _ _ hx, hsum]
    rfl
  have hnodup := heldStarts_nodup (s := 0) hs.nonzero
  rw [hstarts] at hnodup
  have hlive : ∀ a ∈ w.live.filter fun a => a.offset ≠ extent A + extent P,
      a ∈ w.live ∧ a.offset ≠ extent A + extent P := fun a ha => by
    obtain ⟨h1, h2⟩ := List.mem_filter.mp ha
    exact ⟨h1, of_decide_eq_true h2⟩
  exact
    { nonzero := by
        intro z hz
        rw [hentries, List.mem_append, List.mem_cons] at hz
        rcases hz with hz | rfl | hz
        · exact hs.nonzero z (hmem z (Or.inl hz))
        · omega
        · exact hs.nonzero z (hmem z (Or.inr hz))
      extent := by
        have h := hs.extent
        rw [hold] at h
        change extent (A ++ ((P ++ ([x] ++ Q)) ++ B)) = unitSize at h
        change extent c.entries = unitSize
        rw [hnew, ← h]
        simp only [extent_append, hextent]
      freeSize := by
        have h := hs.freeSize
        change w.chunk.freeSize = freeSum w.chunk.entries at h
        change c.freeSize = freeSum c.entries
        rw [hfree, h, hold, hentries]
        simp only [freeSum_append, freeSum_cons, freeSum_nil]
        omega
      contigHint := by
        intro z hz hzpos
        change z ≤ c.contigHint
        rw [hhint]
        rw [hentries, List.mem_append, List.mem_cons] at hz
        rcases hz with hz | rfl | hz
        · exact (hs.contigHint z (hmem z (Or.inl hz)) hzpos).trans (le_max_right _ _)
        · exact le_max_left _ _
        · exact (hs.contigHint z (hmem z (Or.inr hz)) hzpos).trans (le_max_right _ _)
      separated := by
        rw [hentries]
        exact (isChain_free_iff hypos A B).mpr ⟨hchain.1, hchain.2, hbefore, hafter⟩
      starts := by
        have h := hs.starts.filter fun o => o ≠ extent A + extent P
        rw [hstarts, filter_ne_middle hnodup, List.filter_map] at h
        rw [hentries, heldStarts_append, heldStarts_cons_free _ _ hypos.le, Nat.zero_add]
        exact h
      covers := by
        intro a ha
        obtain ⟨ha, hne⟩ := hlive a ha
        obtain ⟨z, hz, hneg, hle⟩ := hs.covers a ha
        rw [hold] at hz
        rcases mem_blocks_replace hextent hz with hz | hz
        · exact ⟨z, hnew ▸ hz, hneg, hle⟩
        · have hm := mem_heldStarts.mpr ⟨z, hz, hneg⟩
          rw [heldStarts_append, heldStarts_append, heldStarts_of_free _ hP,
            heldStarts_of_free _ hQ, heldStarts_cons_held _ _ hx, Nat.zero_add] at hm
          simp only [heldStarts, List.nil_append, List.append_nil, List.mem_singleton] at hm
          exact absurd hm hne
      aligned := fun a ha => hs.aligned a (hlive a ha).1
      room := hroom }

/-- A chunk whose held block `x` between `A ++ P` and `Q ++ B` was released and merged with the
free blocks `P` and `Q`, each one block or none. -/
structure Released (c : PcpuChunk) (A P Q B : List ℤ) (x : ℤ) (t : PcpuChunk) : Prop where
  /-- The merged block. -/
  entries : t.entries = A ++ (freeSum P - x + freeSum Q) :: B
  /-- The block is free. -/
  freeSize : t.freeSize = c.freeSize - x
  /-- The hint covers the merged block. -/
  contigHint : t.contigHint = max (freeSum P - x + freeSum Q) c.contigHint
  /-- The array is the same. -/
  mapAlloc : t.mapAlloc = c.mapAlloc
  /-- No entry is added. -/
  mapUsed : t.mapUsed ≤ c.mapUsed
  /-- The block before is merged if it is free. -/
  before : P = [] ∧ (∀ z ∈ A.getLast?, z < 0) ∨ ∃ p, P = [p] ∧ 0 ≤ p
  /-- The block after is merged if it is free. -/
  after : Q = [] ∧ (∀ z ∈ B.head?, z < 0) ∨ ∃ q, Q = [q] ∧ 0 ≤ q

/-- Merging with the block after and raising the hint completes a release. -/
theorem mergeNext_released {c d : PcpuChunk} {A P R : List ℤ} {x y : ℤ} (hy : y = freeSum P - x)
    (hentries : d.entries = A ++ y :: R) (hfree : d.freeSize = c.freeSize - x)
    (hhint : d.contigHint = c.contigHint) (halloc : d.mapAlloc = c.mapAlloc)
    (hused : d.mapUsed ≤ c.mapUsed)
    (hbefore : P = [] ∧ (∀ z ∈ A.getLast?, z < 0) ∨ ∃ p, P = [p] ∧ 0 ≤ p)
    (hright : ∀ q B, R = q :: B → 0 ≤ q → A.length = 1 ∨ B = []) :
    ∃ Q B, R = Q ++ B ∧ Released c A P Q B x
      { mergeNext d A.length with
        contigHint := max ((mergeNext d A.length).map A.length)
          (mergeNext d A.length).contigHint } := by
  have hnext := mergeNext_entries hentries hright
  generalize mergeNext d A.length = merged at hnext
  cases hnext with
  | apart held =>
    have hplace := map_of_entries hentries
    have hsum : freeSum P - x + freeSum [] = y := by
      rw [freeSum_nil, add_zero, hy]
    refine ⟨[], R, rfl, ⟨?_, hfree, ?_, halloc, hused, hbefore, .inl ⟨rfl, held⟩⟩⟩
    · rw [hsum]
      exact hentries
    · rw [hsum, hplace, hhint]
  | merged B' q c' after free entries freeSize contigHint mapAlloc mapUsed =>
    have hplace := map_of_entries entries
    have hsum : freeSum P - x + freeSum [q] = y + q := by
      rw [freeSum_cons, freeSum_nil, add_zero, max_eq_left free, hy]
    refine ⟨[q], B', after, ⟨?_, freeSize.trans hfree, ?_, mapAlloc.trans halloc,
      mapUsed.trans hused, hbefore, .inr ⟨q, rfl, free⟩⟩⟩
    · rw [hsum]
      exact entries
    · rw [hsum]
      dsimp only
      rw [hplace, contigHint, hhint]

/-- What `pcpu_free_area` does to the block that it finds, where the moves are right. -/
theorem pcpuFreeArea_released {c : PcpuChunk} {freeme : ℕ} {L R : List ℤ} {x : ℤ}
    (he : c.entries = L ++ x :: R) (hfind : findBlock c freeme 0 0 c.mapUsed = L.length)
    (hmoves : MovesRight c (.free freeme)) :
    ∃ A P Q B, L = A ++ P ∧ R = Q ++ B ∧ Released c A P Q B x (pcpuFreeArea c freeme) := by
  have hx := map_of_entries he
  have hused := mapUsed_of_entries he
  have hright : ∀ q B, R = q :: B → 0 ≤ q →
      (if 0 < L.length ∧ 0 ≤ c.map (L.length - 1) then L.length - 1 else L.length) = 1 ∨
        B = [] := by
    intro q B hR hq
    have hnext : c.map (L.length + 1) = q := by
      have h := map_of_entries (A := L ++ [x]) (B := B) (x := q) (by
        rw [he, hR, List.append_assoc, List.singleton_append])
      rwa [List.length_append, List.length_singleton] at h
    rw [hR, List.length_cons] at hused
    dsimp only [MovesRight] at hmoves
    rw [hfind, hnext] at hmoves
    refine (hmoves ⟨by omega, hq⟩).imp_right fun hlast => ?_
    exact List.length_eq_zero_iff.mp (by omega)
  rw [pcpuFreeArea, hfind, hx]
  generalize hf : ({ c with map := Function.update c.map L.length (-x)
                            freeSize := c.freeSize - x } : PcpuChunk) = freed
  have hentries : freed.entries = L ++ -x :: R := by
    rw [← hf]
    exact window_store (-x) he
  have hfree : freed.freeSize = c.freeSize - x := by rw [← hf]
  have hhint : freed.contigHint = c.contigHint := by rw [← hf]
  have halloc : freed.mapAlloc = c.mapAlloc := by rw [← hf]
  have hsame : freed.mapUsed = c.mapUsed := by rw [← hf]
  have hprevious := mergePrevious_entries hentries
  generalize mergePrevious freed L.length = previous at hprevious
  cases hprevious with
  | apart held =>
    have hhead : ¬ (0 < L.length ∧ 0 ≤ c.map (L.length - 1)) := by
      rcases List.eq_nil_or_concat L with rfl | ⟨L', p, rfl⟩
      · exact fun hc => Nat.lt_irrefl _ hc.1
      · rw [List.concat_eq_append] at *
        have hlast := held p (by rw [List.getLast?_append, List.getLast?_singleton]; rfl)
        have hp := map_of_entries (A := L') (x := p) (B := x :: R) (by
          rw [he, List.append_assoc, List.singleton_append])
        rw [List.length_append, List.length_singleton, Nat.add_sub_cancel, hp]
        omega
    rw [if_neg hhead] at hright
    obtain ⟨Q, B, hR, hreleased⟩ := mergeNext_released (P := []) (by rw [freeSum_nil, zero_sub])
      hentries hfree hhint halloc hsame.le (.inl ⟨rfl, held⟩) hright
    exact ⟨L, [], Q, B, (List.append_nil L).symm, hR, hreleased⟩
  | merged L' p c' before free entries freeSize contigHint mapAlloc mapUsed =>
    subst before
    have hlen : (L' ++ [p]).length - 1 = L'.length := by
      rw [List.length_append, List.length_singleton, Nat.add_sub_cancel]
    have hp := map_of_entries (A := L') (x := p) (B := x :: R) (by rw [he, List.append_assoc]; rfl)
    have hpos : 0 < (L' ++ [p]).length := by
      rw [List.length_append, List.length_singleton]
      omega
    rw [if_pos ⟨hpos, by rwa [hlen, hp]⟩, hlen] at hright
    obtain ⟨Q, B, hR, hreleased⟩ := mergeNext_released (P := [p])
      (by rw [freeSum_cons, freeSum_nil, max_eq_left free]; omega) entries
      (freeSize.trans hfree) (contigHint.trans hhint) (mapAlloc.trans halloc)
      (mapUsed.trans hsame.le) (.inr ⟨p, rfl, free⟩) hright
    exact ⟨L', [p], Q, B, rfl, hR, hreleased⟩

/-- The block before a merged block that is not free, or the merged one was alone. -/
theorem Released.getLast_le {c t : PcpuChunk} {A P Q B : List ℤ} {x : ℤ}
    (h : Released c A P Q B x t) (hP : ∀ p ∈ P, 0 < p) (hchain : (A ++ P).IsChain NotBothFree) :
    ∀ z ∈ A.getLast?, z ≤ 0 := by
  rcases h.before with ⟨_, hheld⟩ | ⟨p, hp, _⟩
  · exact fun z hz => (hheld z hz).le
  · have hpos := hP p (by rw [hp]; exact List.mem_singleton_self p)
    rw [hp] at hchain
    exact ((isChain_free_iff hpos A []).mp hchain).2.2.1

/-- The block behind a merged block is not free. -/
theorem Released.head_le {c t : PcpuChunk} {A P Q B : List ℤ} {x : ℤ}
    (h : Released c A P Q B x t) (hQ : ∀ q ∈ Q, 0 < q) (hchain : (Q ++ B).IsChain NotBothFree) :
    ∀ z ∈ B.head?, z ≤ 0 := by
  rcases h.after with ⟨_, hheld⟩ | ⟨q, hq, _⟩
  · exact fun z hz => (hheld z hz).le
  · have hpos := hQ q (by rw [hq]; exact List.mem_singleton_self q)
    rw [hq] at hchain
    exact ((isChain_free_iff hpos [] B).mp hchain).2.2.2

/-- A release of a held block keeps the chunk sound without its area. -/
theorem released_sound {unitSize : ℕ} {w : ChunkWorld} {A P Q B : List ℤ} {x : ℤ} {t : PcpuChunk}
    (hs : ChunkSound unitSize w) (he : w.chunk.entries = A ++ (P ++ ([x] ++ (Q ++ B)))) (hx : x < 0)
    (hr : Released w.chunk A P Q B x t) :
    ChunkSound unitSize ⟨t, w.live.filter fun a => a.offset ≠ extent A + extent P⟩ := by
  have hchain := he ▸ hs.separated
  have hnonzero : ∀ z, z ∈ P ∨ z ∈ Q → z ≠ 0 := by
    intro z hz
    refine hs.nonzero z ?_
    rw [he]
    simp only [List.mem_append]
    tauto
  have hP : ∀ p ∈ P, 0 < p := by
    intro p hp
    have hne := hnonzero p (.inl hp)
    rcases hr.before with ⟨hnil, _⟩ | ⟨p', hone, hpos⟩
    · rw [hnil] at hp
      cases hp
    · rw [hone] at hp
      rw [List.mem_singleton.mp hp] at hne ⊢
      omega
  have hQ : ∀ q ∈ Q, 0 < q := by
    intro q hq
    have hne := hnonzero q (.inr hq)
    rcases hr.after with ⟨hnil, _⟩ | ⟨q', hone, hpos⟩
    · rw [hnil] at hq
      cases hq
    · rw [hone] at hq
      rw [List.mem_singleton.mp hq] at hne ⊢
      omega
  have hroom := hs.room
  have hfront : (A ++ P).IsChain NotBothFree := by
    rw [← List.append_assoc] at hchain
    exact hchain.left_of_append
  exact freed_sound hs he hx hP hQ rfl hr.entries hr.freeSize hr.contigHint
    ((hr.mapUsed.trans hroom).trans hr.mapAlloc.ge) (hr.getLast_le hP hfront)
    (hr.head_le hQ hchain.right_of_append.right_of_append.right_of_append)

/-- The block of a live area, which a free finds. -/
theorem sound_found {unitSize : ℕ} {w : ChunkWorld} {freeme : ℕ} (hs : ChunkSound unitSize w)
    (hlegal : Legal w (.free freeme)) :
    ∃ L R x, w.chunk.entries = L ++ x :: R ∧ x < 0 ∧ extent L = freeme ∧
      findBlock w.chunk freeme 0 0 w.chunk.mapUsed = L.length := by
  obtain ⟨a, ha, hoffset⟩ := hlegal
  obtain ⟨x, hmem, hneg, -⟩ := hs.covers a ha
  obtain ⟨L, R, he, ho⟩ := split_of_mem_blocks hmem
  rw [hoffset, Nat.zero_add] at ho
  refine ⟨L, R, x, he, hneg, ho.symm, ?_⟩
  have h := findBlock_eq (i := 0) he
    (fun y hy => hs.nonzero y (he ▸ List.mem_append_left _ hy)) (Nat.zero_add (extent L))
  rwa [Nat.zero_add, ← ho] at h

/-- The step of a release. -/
theorem free_sound {unitSize : ℕ} {w : ChunkWorld} {freeme : ℕ} (hs : ChunkSound unitSize w)
    (hlegal : Legal w (.free freeme)) (hmoves : MovesRight w.chunk (.free freeme)) :
    ∃ t, perform w (.free freeme) = some t ∧ ChunkSound unitSize t := by
  obtain ⟨L, R, x, he, hneg, ho, hfind⟩ := sound_found hs hlegal
  refine ⟨_, rfl, ?_⟩
  obtain ⟨A, P, Q, B, hL, hR, hr⟩ := pcpuFreeArea_released he hfind hmoves
  rw [hL, hR] at he
  rw [← ho]
  rw [← ho] at hr
  rw [hL] at hr ⊢
  rw [extent_append] at hr ⊢
  exact released_sound hs (by rw [he, List.append_assoc]; rfl) hneg hr

/-- Live areas of a sound chunk do not overlap. -/
theorem live_apart {unitSize : ℕ} {w : ChunkWorld} (hs : ChunkSound unitSize w) :
    w.live.Pairwise fun a b => a.offset + a.size ≤ b.offset ∨ b.offset + b.size ≤ a.offset := by
  have hnodup := hs.starts.nodup_iff.mpr (heldStarts_nodup hs.nonzero)
  refine (List.pairwise_map.mp hnodup).imp_of_mem fun {a b} ha hb hne => ?_
  obtain ⟨x, hx, -, hax⟩ := hs.covers a ha
  obtain ⟨y, hy, -, hby⟩ := hs.covers b hb
  rcases lt_or_gt_of_ne hne with h | h
  · have := blocks_apart hx hy h
    omega
  · have := blocks_apart hy hx h
    omega

/-- Over every run whose frees move the right entries, the area map of a fresh chunk tiles the
unit, its counters agree with it, every live area owns one block of it, and live areas do not
overlap. -/
theorem history_keepsMap {unitSize : ℕ} (hpos : 0 < unitSize) (hmax : unitSize + pageSize ≤ 2 ^ 31)
    (ops : List ChunkOp)
    (hrun : Admissible perform (fun w op => Legal w op ∧ MovesRight w.chunk op)
      ⟨pcpuAllocChunk unitSize, []⟩ ops) :
    ∃ w, exec perform ⟨pcpuAllocChunk unitSize, []⟩ ops = some w ∧ ChunkSound unitSize w ∧
      w.live.Pairwise fun a b => a.offset + a.size ≤ b.offset ∨ b.offset + b.size ≤ a.offset := by
  obtain ⟨w, he, hs⟩ := exec_total
    (fun (w : ChunkWorld) (op : ChunkOp) (hs : ChunkSound unitSize w) hok => by
      cases op with
      | alloc size align => exact alloc_sound hmax hs hok.1
      | free freeme => exact free_sound hs hok.1 hok.2
      | extend newAlloc succeeds =>
        obtain ⟨he, hu, ha, hf, hh⟩ := extend_entries hs.room newAlloc succeeds
        refine ⟨_, rfl, ?_⟩
        exact
          { nonzero := by rw [he]; exact hs.nonzero
            extent := by rw [he]; exact hs.extent
            freeSize := by rw [he, hf]; exact hs.freeSize
            contigHint := by rw [he, hh]; exact hs.contigHint
            separated := by rw [he]; exact hs.separated
            starts := by rw [he]; exact hs.starts
            covers := by rw [he]; exact hs.covers
            aligned := hs.aligned
            room := by rw [hu]; exact hs.room.trans ha })
    (pcpuAllocChunk_sound hpos) hrun
  exact ⟨w, he, hs, live_apart hs⟩

/-- Legality is decidable. -/
instance (w : ChunkWorld) : (op : ChunkOp) → Decidable (Legal w op)
  | .alloc size align => inferInstanceAs (Decidable (0 < size ∧ size + pageSize ≤ 2 ^ 31 ∧
      (∃ k ≤ 12, align = 2 ^ k) ∧ w.chunk.mapUsed + 2 ≤ w.chunk.mapAlloc))
  | .free freeme => inferInstanceAs (Decidable (∃ a ∈ w.live, a.offset = freeme))
  | .extend _ _ => isTrue trivial

/-- Whether a free moves the right entries is decidable. -/
instance (c : PcpuChunk) : (op : ChunkOp) → Decidable (MovesRight c op)
  | .alloc _ _ => isTrue trivial
  | .free freeme => inferInstanceAs (Decidable (
      let i := findBlock c freeme 0 0 c.mapUsed
      let merged := if 0 < i ∧ 0 ≤ c.map (i - 1) then i - 1 else i
      i + 1 < c.mapUsed ∧ 0 ≤ c.map (i + 1) → merged = 1 ∨ i + 2 = c.mapUsed))
  | .extend _ _ => isTrue trivial

/-- Areas behind an aligned head and before a tail, and a release that merges both ways. -/
theorem history_keepsMap_merging :
    ∃ w, exec perform ⟨pcpuAllocChunk 32768, []⟩
        [.alloc 6 4, .alloc 100 64, .extend 32 true, .alloc 3 2, .free 64] = some w ∧
      ChunkSound 32768 w ∧
      w.live.Pairwise fun a b => a.offset + a.size ≤ b.offset ∨ b.offset + b.size ≤ a.offset :=
  history_keepsMap (by decide) (by decide) _ (by decide +kernel)

/-- Five areas in a row, of which the fourth and then the third are released. -/
def releaseInside : List ChunkOp :=
  [.alloc 16 4, .alloc 16 4, .alloc 16 4, .alloc 16 4, .alloc 16 4, .free 48, .free 32]

/-- The third area merges with the free fourth one and nothing is moved: the entries no longer
add up to the unit and two neighbours are free. -/
theorem releaseInside_counterexample :
    Admissible perform Legal ⟨pcpuAllocChunk 32768, []⟩ releaseInside ∧
      (exec perform ⟨pcpuAllocChunk 32768, []⟩ releaseInside).map
        (fun w => w.chunk.entries) = some [-16, -16, 32, 16, -16] ∧
      ¬ ∃ w, exec perform ⟨pcpuAllocChunk 32768, []⟩ releaseInside = some w ∧
        ChunkSound 32768 w := by
  have hv : (exec perform ⟨pcpuAllocChunk 32768, []⟩ releaseInside).map
      (fun w => w.chunk.entries) = some [-16, -16, 32, 16, -16] := by decide +kernel
  refine ⟨by decide +kernel, hv, fun ⟨w, he, hs⟩ => ?_⟩
  rw [he, Option.map_some, Option.some.injEq] at hv
  have hsum := hs.extent
  rw [hv] at hsum
  exact absurd hsum (by decide)

end BiscuitOS.PercpuHistory
