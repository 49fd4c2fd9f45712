import BiscuitOS.PercpuSlotted

/-!
# The search for a chunk

The search of `pcpu_alloc` goes through the lists from the slot of the size on
and tries the chunks. A chunk that refuses gets a smaller hint, and as long as
it keeps its slot the walk goes on behind it: then the search passes every
chunk on these lists, each restart has a map extended or a chunk created, and
a chunk that was created serves.
-/

namespace BiscuitOS.PercpuSearch

open MachineWord TransitionRun LoopRun BucketLists BlockTiling PercpuModel PercpuBlocks
open PercpuHistory PercpuFirst PercpuSlots PercpuSlotted

/-- A chunk is tried and has an area. -/
def Serves (size align : ℕ) (c : PcpuChunk) : Prop :=
  size ≤ toUnsigned 64 c.contigHint ∧ 0 ≤ (pcpuAllocArea c size align).1

/-- A chunk is not tried, or refuses and keeps its slot. -/
def Passes (unitSize size align : ℕ) (c : PcpuChunk) : Prop :=
  toUnsigned 64 c.contigHint < size ∨ (pcpuAllocArea c size align).1 < 0 ∧
    pcpuChunkSlot unitSize (pcpuAllocArea c size align).2 = pcpuChunkSlot unitSize c

/-- The chunks that are tried before one serves keep their slots. -/
def Clears (unitSize size align : ℕ) (chunks : ℕ → PcpuChunk) : List ℕ → Prop
  | [] => True
  | id :: rest => Serves size align (chunks id) ∨
      Passes unitSize size align (chunks id) ∧ Clears unitSize size align chunks rest

variable {unitSize size align : ℕ} {c d : PcpuChunk} {chunks chunks' : ℕ → PcpuChunk}

/-- Chunks that serve and pass as others do clear the same lists. -/
theorem Clears.mono {l : List ℕ} (h : ∀ id ∈ l,
      (Serves size align (chunks id) → Serves size align (chunks' id)) ∧
        (Passes unitSize size align (chunks id) → Passes unitSize size align (chunks' id)))
    (hl : Clears unitSize size align chunks l) : Clears unitSize size align chunks' l := by
  induction l with
  | nil => trivial
  | cons id rest ih =>
    obtain ⟨hserves, hpasses⟩ := h id List.mem_cons_self
    exact hl.imp hserves fun hp =>
      ⟨hpasses hp.1, ih (fun j hj => h j (List.mem_cons_of_mem _ hj)) hp.2⟩

/-- A chunk that serves may stand anywhere. -/
theorem Clears.insert {id : ℕ} (hid : Serves size align (chunks id)) {A B : List ℕ}
    (h : Clears unitSize size align chunks (A ++ B)) :
    Clears unitSize size align chunks (A ++ id :: B) := by
  induction A with
  | nil => exact .inl hid
  | cons j A ih => exact h.imp_right fun hp => ⟨hp.1, ih hp.2⟩

/-- What the scan of a chunk leaves. -/
theorem pcpuAllocArea_refusal (c : PcpuChunk) (size align : ℕ) :
    (∀ h, refusal size align 0 0 c.entries = some h →
        pcpuAllocArea c size align = (-1, { c with contigHint := h })) ∧
      (refusal size align 0 0 c.entries = none → 0 ≤ (pcpuAllocArea c size align).1) :=
  allocAreaFrom_refusal c size align 0 0 0 c.mapUsed

/-- A chunk that refuses only changes its hint, and refuses again. -/
theorem refused_eq (h : (pcpuAllocArea c size align).1 < 0) :
    ∃ hint, pcpuAllocArea c size align = (-1, { c with contigHint := hint }) ∧
      pcpuAllocArea { c with contigHint := hint } size align =
        (-1, { c with contigHint := hint }) := by
  obtain ⟨hsome, hnone⟩ := pcpuAllocArea_refusal c size align
  cases hscan : refusal size align 0 0 c.entries with
  | none => exact absurd (hnone hscan) (not_le.mpr h)
  | some hint =>
    refine ⟨hint, hsome hint hscan, ?_⟩
    exact (pcpuAllocArea_refusal { c with contigHint := hint } size align).1 hint hscan

/-- Chunks with the same blocks and counters serve alike. -/
theorem serves_congr (he : d.entries = c.entries) (hh : d.contigHint = c.contigHint)
    (h : Serves size align c) : Serves size align d := by
  refine ⟨hh ▸ h.1, (pcpuAllocArea_refusal d size align).2 ?_⟩
  rw [he]
  cases hscan : refusal size align 0 0 c.entries with
  | none => rfl
  | some hint =>
    have hneg := h.2
    rw [(pcpuAllocArea_refusal c size align).1 hint hscan] at hneg
    exact absurd hneg (show ¬(0 : ℤ) ≤ -1 by decide)

/-- Chunks with the same blocks and counters are passed alike. -/
theorem passes_congr (he : d.entries = c.entries) (hh : d.contigHint = c.contigHint)
    (hf : d.freeSize = c.freeSize) (h : Passes unitSize size align c) :
    Passes unitSize size align d := by
  refine h.imp (fun hskip => hh ▸ hskip) fun hrefused => ?_
  cases hscan : refusal size align 0 0 c.entries with
  | none =>
    exact absurd ((pcpuAllocArea_refusal c size align).2 hscan) (not_le.mpr hrefused.1)
  | some hint =>
    have hslot := hrefused.2
    rw [(pcpuAllocArea_refusal c size align).1 hint hscan, pcpuChunkSlot, pcpuChunkSlot] at hslot
    rw [(pcpuAllocArea_refusal d size align).1 hint (by rw [he]; exact hscan), pcpuChunkSlot,
      pcpuChunkSlot]
    dsimp only at hslot ⊢
    rw [hf, hh]
    exact ⟨show (-1 : ℤ) < 0 by decide, hslot⟩

/-- A refused chunk is passed from then on. -/
theorem refused_passes (h : (pcpuAllocArea c size align).1 < 0) :
    Passes unitSize size align (pcpuAllocArea c size align).2 := by
  obtain ⟨hint, heq, hagain⟩ := refused_eq h
  rw [heq]
  dsimp only
  rw [Passes, hagain]
  exact .inr ⟨show (-1 : ℤ) < 0 by decide, rfl⟩

/-- A new chunk serves. -/
theorem created_serves (hunit : pcpuMinUnitSize ≤ unitSize ∧ unitSize + pageSize ≤ 2 ^ 31)
    (hsize : size ≤ pcpuMinUnitSize) (halign : ∃ k ≤ 12, align = 2 ^ k) :
    Serves size align (pcpuAllocChunk unitSize) := by
  obtain ⟨k, hk, rfl⟩ := halign
  rw [pageSize] at hunit
  have hhint : (pcpuAllocChunk unitSize).contigHint = unitSize := rfl
  have hentries : (pcpuAllocChunk unitSize).entries = [(unitSize : ℤ)] := rfl
  have hword := toUnsigned_of_lt (w := 64) (x := (unitSize : ℤ)) (by omega) (by omega)
  have hmin : pcpuMinUnitSize = 32768 := rfl
  have hpow : 2 ^ k ≤ 2 ^ 12 := Nat.pow_le_pow_right (by omega) hk
  obtain ⟨head, hhead, -, -, hfirst⟩ := head_bounds 0 hk (by omega)
  refine ⟨by rw [hhint]; omega, (pcpuAllocArea_refusal _ _ _).2 ?_⟩
  have hfit : toSigned 32 ((alignUp 32 0 (2 ^ k) : ℤ) - ((0 : ℕ) : ℤ) + size) = size := by
    rw [hhead, hfirst rfl, Nat.cast_zero, zero_add]
    exact toSigned_of_lt (by omega) (by omega)
  rw [hentries, refusal, if_neg (by omega), hfit, if_neg (by omega)]

/-- The chunks that the search of a size goes through. -/
def scanned (s : PcpuSystem) (size : ℕ) : List ℕ :=
  fromSlot s.slots (pcpuNrSlots s.unitSize) (pcpuSizeToSlot s.unitSize size)

/-- The chunks that the walk has ahead. -/
def ahead (s : PcpuSystem) : Place → List ℕ
  | .reserved _ => []
  | .walk slot (.head _) => fromSlot s.slots (pcpuNrSlots s.unitSize) (slot + 1)
  | .walk slot (.chunk id) =>
    fromEntry id (s.slots slot) ++ fromSlot s.slots (pcpuNrSlots s.unitSize) (slot + 1)

/-- Ahead of the head of a list are the later lists. -/
theorem ahead_head (s : PcpuSystem) (slot k : ℕ) :
    ahead s (.walk slot (.head k)) =
      fromSlot s.slots (pcpuNrSlots s.unitSize) (slot + 1) := rfl

/-- Ahead of a chunk are the rest of its list and the later lists. -/
theorem ahead_chunk (s : PcpuSystem) (slot id : ℕ) :
    ahead s (.walk slot (.chunk id)) = fromEntry id (s.slots slot) ++
      fromSlot s.slots (pcpuNrSlots s.unitSize) (slot + 1) := rfl

/-- A link within the list that is walked. -/
def OnList (s : PcpuSystem) (slot : ℕ) : Cursor → Prop
  | .head k => k = slot
  | .chunk id => id ∈ s.slots slot

/-- Where a list begins. -/
theorem firstOf_spec (s : PcpuSystem) (slot : ℕ) : OnList s slot (firstOf s slot) ∧
    ahead s (.walk slot (firstOf s slot)) =
      s.slots slot ++ fromSlot s.slots (pcpuNrSlots s.unitSize) (slot + 1) := by
  rw [firstOf]
  cases hl : s.slots slot with
  | nil => exact ⟨rfl, rfl⟩
  | cons id rest =>
    refine ⟨?_, ?_⟩
    · rw [List.head?_cons, OnList, hl]
      exact List.mem_cons_self
    · rw [List.head?_cons, ahead_chunk, hl, fromEntry_cons]

/-- Where the list goes on behind a chunk. -/
theorem nextOf_spec {s : PcpuSystem} (h : Slotted s) {slot id : ℕ}
    (hslot : slot < pcpuNrSlots s.unitSize) (hid : id ∈ s.slots slot) :
    OnList s slot (nextOf s id) ∧
      ahead s (.walk slot (.chunk id)) = id :: ahead s (.walk slot (nextOf s id)) := by
  have hfind : (List.range (pcpuNrSlots s.unitSize)).find? (fun k => decide (id ∈ s.slots k)) =
      some slot := by
    cases hf : (List.range (pcpuNrSlots s.unitSize)).find? (fun k => decide (id ∈ s.slots k)) with
    | none =>
      have hno := List.find?_eq_none.mp hf slot (List.mem_range.mpr hslot)
      exact absurd (decide_eq_true hid) hno
    | some k =>
      have hk : id ∈ s.slots k := of_decide_eq_true
        (List.find?_some (p := fun k => decide (id ∈ s.slots k)) hf)
      have hkey := ((h.mem id k).mp hk).2
      rw [← hkey, ((h.mem id slot).mp hid).2]
  obtain ⟨B, hfrom, hlast, hnext⟩ := fromEntry_eq (h.nodup slot) hid
  rw [nextOf, hfind]
  dsimp only
  cases B with
  | nil =>
    rw [hlast rfl]
    refine ⟨rfl, ?_⟩
    rw [ahead_chunk, ahead_head, hfrom]
    rfl
  | cons j C =>
    obtain ⟨hafter, hj, hfrom'⟩ := hnext j C rfl
    rw [hafter]
    refine ⟨hj, ?_⟩
    rw [ahead_chunk, ahead_chunk, hfrom, hfrom']
    rfl

/-- Behind the last list there is none. -/
theorem slots_beyond {w : PcpuWorld} (h : Kept w) {k : ℕ}
    (hk : pcpuNrSlots w.sys.unitSize ≤ k) : w.sys.slots k = [] := by
  refine List.eq_nil_iff_forall_not_mem.mpr fun id hid => ?_
  obtain ⟨hlinked, hkey⟩ := (h.slotted.mem id k).mp hid
  have hunit := h.unit.2
  rw [pageSize] at hunit
  have hlt := (h.chunks id hlinked.1).counted.slot_lt (by omega)
  omega

/-- Ahead of where a list begins are that list and the later ones. -/
theorem ahead_first {w : PcpuWorld} (h : Kept w) (slot : ℕ) :
    ahead w.sys (.walk slot (firstOf w.sys slot)) =
      fromSlot w.sys.slots (pcpuNrSlots w.sys.unitSize) slot := by
  rw [(firstOf_spec w.sys slot).2]
  by_cases hslot : slot < pcpuNrSlots w.sys.unitSize
  · rw [fromSlot_of_lt hslot]
  · rw [slots_beyond h (not_lt.mp hslot), fromSlot_of_le (not_lt.mp hslot),
      fromSlot_of_le (by omega)]
    rfl

/-- What `pcpu_alloc` goes on with. -/
structure Asked (ask : Request) : Prop where
  /-- There is something to allocate. -/
  pos : 0 < ask.size
  /-- It is not too large. -/
  size : ask.size ≤ pcpuMinUnitSize
  /-- The alignment is a power of two up to a page. -/
  align : ∃ k ≤ 12, ask.align = 2 ^ k

/-- What a walk keeps. -/
structure Walking (ask : Request) (p : AllocPoint) (slot : ℕ) (cursor : Cursor) : Prop where
  /-- It stands on the list that it walks. -/
  onList : OnList p.sys slot cursor
  /-- A search from the start would clear its lists. -/
  clears : Clears p.sys.unitSize ask.size ask.align p.sys.chunks (scanned p.sys ask.size)
  /-- The walk clears what it has ahead. -/
  clearsAhead : Clears p.sys.unitSize ask.size ask.align p.sys.chunks
    (ahead p.sys (.walk slot cursor))
  /-- A chunk created in the call is ahead and serves. -/
  created : p.created = 1 → ∃ n ∈ ahead p.sys (.walk slot cursor), n ∈ scanned p.sys ask.size ∧
    Serves ask.size ask.align (p.sys.chunks n) ∧
    (p.sys.chunks n).mapUsed + 2 ≤ (p.sys.chunks n).mapAlloc

/-- Where a call stands. -/
def Standing (ask : Request) (p : AllocPoint) : Place → Prop
  | .reserved id => p.sys.reserved = some id
  | .walk slot cursor => Walking ask p slot cursor

/-- The chunks that were there have the same blocks and free bytes. -/
def SameBlocks (w : PcpuWorld) (s : PcpuSystem) : Prop :=
  ∀ id, id < w.sys.count → (s.chunks id).entries = (w.sys.chunks id).entries ∧
    (s.chunks id).freeSize = (w.sys.chunks id).freeSize

/-- What a call of `pcpu_alloc` keeps while it goes on. -/
structure Going (w : PcpuWorld) (ask : Request) (p : AllocPoint) : Prop where
  /-- The allocator is as it is to be. -/
  kept : Kept ⟨p.sys, w.live⟩
  /-- The chunks created are counted. -/
  count : p.sys.count = w.sys.count + p.created
  /-- At most one is created. -/
  once : p.created ≤ 1
  /-- No block was taken. -/
  same : SameBlocks w p.sys
  /-- The call stands somewhere. -/
  standing : Standing ask p p.place

/-- How a call of `pcpu_alloc` is to end: with at most one new chunk, and without an area with the
blocks as they were. -/
inductive Ended (w : PcpuWorld) (ask : Request) : AllocResult → Prop
  /-- It returns no area. -/
  | failed (s : PcpuSystem) (created : ℕ) (once : created ≤ 1) (kept : Kept ⟨s, w.live⟩)
      (same : SameBlocks w s) : Ended w ask (.returned s created none)
  /-- It returns an area. -/
  | served (s : PcpuSystem) (created id off : ℕ) (once : created ≤ 1)
      (kept : Kept ⟨s, Function.update w.live id (⟨off, ask.size, ask.align⟩ :: w.live id)⟩) :
      Ended w ask (.returned s created (some (id, off)))

/-- The walk stands at a chunk. -/
def At (p : AllocPoint) (id : ℕ) : Prop := ∃ slot, p.place = .walk slot (.chunk id)

/-- The chunks whose maps are to be extended before an allocation. -/
def needing (s : PcpuSystem) : ℕ :=
  (List.range s.count).countP fun id =>
    decide ((s.chunks id).mapAlloc < (s.chunks id).mapUsed + 2)

/-- The lists left to a walk. -/
def listsLeft (s : PcpuSystem) : Place → ℕ
  | .reserved _ => 0
  | .walk slot _ => pcpuNrSlots s.unitSize - slot

/-- What lowers in every round: the maps to be extended and the chunk to be created, or else what
the walk has ahead. -/
def progress (p : AllocPoint) : ℕ ×ₗ ℕ :=
  toLex (needing p.sys + (1 - p.created), (ahead p.sys p.place).length + listsLeft p.sys p.place)

/-- A round after which the call goes on. -/
structure Proceeds (w : PcpuWorld) (ask : Request) (p q : AllocPoint) : Prop where
  /-- The call keeps what it is to keep. -/
  going : Going w ask q
  /-- It comes closer to its end. -/
  progress : progress q < progress p
  /-- It restarts, or only leaves a chunk behind at which it stood. -/
  visits : (∀ id ∈ scanned q.sys ask.size, id ∈ ahead q.sys q.place) ∨
    (scanned q.sys ask.size = scanned p.sys ask.size ∧
      ∀ id ∈ ahead p.sys p.place, id ∈ ahead q.sys q.place ∨ At p id)

/-- What a round does. -/
def Rounds (w : PcpuWorld) (ask : Request) (p : AllocPoint) : Prop :=
  (∃ q, allocStep ask p = .inl q ∧ Proceeds w ask p q) ∨
    ∃ r, allocStep ask p = .inr r ∧ Ended w ask r

variable {w : PcpuWorld} {ask : Request} {p : AllocPoint}

/-- A chunk whose blocks and slot stay is stored in place. -/
theorem going_store (h : Going w ask p) {id : ℕ} (hid : id < p.sys.count) {d : PcpuChunk}
    (hd : ChunkKept p.sys.unitSize d (w.live id)) (he : d.entries = (p.sys.chunks id).entries)
    (hf : d.freeSize = (p.sys.chunks id).freeSize)
    (hslot : pcpuChunkSlot p.sys.unitSize d = pcpuChunkSlot p.sys.unitSize (p.sys.chunks id)) :
    Kept ⟨{ p.sys with chunks := Function.update p.sys.chunks id d }, w.live⟩ ∧
      SameBlocks w { p.sys with chunks := Function.update p.sys.chunks id d } := by
  constructor
  · have hkept := store_kept h.kept hid hd
    rw [storeChunk_same hslot, Function.update_eq_self] at hkept
    exact hkept
  · intro j hj
    dsimp only
    by_cases hjid : j = id
    · rw [hjid, Function.update_self, he, hf]
      rw [hjid] at hj
      exact h.same id hj
    · rw [Function.update_of_ne hjid]
      exact h.same j hj

/-- A chunk stored in place that serves and passes as before clears the same lists. -/
theorem clears_store {id : ℕ} (hs : Serves size align (chunks id) → Serves size align d)
    (hp : Passes unitSize size align (chunks id) → Passes unitSize size align d) {l : List ℕ}
    (hl : Clears unitSize size align chunks l) :
    Clears unitSize size align (Function.update chunks id d) l := by
  refine Clears.mono (fun j _ => ?_) hl
  by_cases hj : j = id
  · rw [hj, Function.update_self]
    exact ⟨hs, hp⟩
  · rw [Function.update_of_ne hj]
    exact ⟨fun h => h, fun h => h⟩

/-- Storing a chunk in place adds no map to be extended. -/
theorem needing_store {s : PcpuSystem} {id : ℕ}
    (hd : d.mapAlloc < d.mapUsed + 2 → (s.chunks id).mapAlloc < (s.chunks id).mapUsed + 2) :
    needing { s with chunks := Function.update s.chunks id d } ≤ needing s := by
  refine List.countP_mono_left fun j _ hj => ?_
  have hlt := of_decide_eq_true hj
  refine decide_eq_true ?_
  dsimp only at hlt
  by_cases hjid : j = id
  · rw [hjid, Function.update_self] at hlt
    rw [hjid]
    exact hd hlt
  · rwa [Function.update_of_ne hjid] at hlt

/-- An extended map is no longer to be extended. -/
theorem needing_extended {s : PcpuSystem} {id : ℕ} (hid : id < s.count)
    (hneed : (s.chunks id).mapAlloc < (s.chunks id).mapUsed + 2)
    (hd : d.mapUsed + 2 ≤ d.mapAlloc) :
    needing { s with chunks := Function.update s.chunks id d } < needing s := by
  have hmem : id ∈ List.range s.count := List.mem_range.mpr hid
  obtain ⟨A, B, hAB⟩ := List.append_of_mem hmem
  have hcount : ∀ l : List ℕ, l.countP (fun j => decide
      ((Function.update s.chunks id d j).mapAlloc < (Function.update s.chunks id d j).mapUsed + 2)) ≤
      l.countP fun j => decide ((s.chunks j).mapAlloc < (s.chunks j).mapUsed + 2) := by
    intro l
    refine List.countP_mono_left fun j _ hj => ?_
    have hlt := of_decide_eq_true hj
    refine decide_eq_true ?_
    by_cases hjid : j = id
    · rw [hjid, Function.update_self] at hlt
      omega
    · rwa [Function.update_of_ne hjid] at hlt
  have hA := hcount A
  have hB := hcount B
  rw [needing, needing, hAB]
  dsimp only
  rw [List.countP_append, List.countP_append, List.countP_cons_of_neg, List.countP_cons_of_pos]
  · omega
  · exact decide_eq_true hneed
  · simp only [Function.update_self, decide_eq_true_eq, not_lt]
    exact hd

/-- What extending the map of a chunk does. -/
theorem extend_spec {live : List Area} (hk : ChunkKept unitSize c live)
    (hmax : unitSize + pageSize ≤ 2 ^ 31) (hneed : c.mapAlloc < c.mapUsed + 2) {r : ℕ}
    (hr : c.mapUsed + 2 ≤ r) (hdvd : 16 ∣ r) (answers : Answers) (n : ℕ) :
    ChunkKept unitSize (pcpuExtendAreaMap c r (answers.grants n r)) live ∧
      (pcpuExtendAreaMap c r (answers.grants n r)).entries = c.entries ∧
      (pcpuExtendAreaMap c r (answers.grants n r)).freeSize = c.freeSize ∧
      (pcpuExtendAreaMap c r (answers.grants n r)).contigHint = c.contigHint ∧
      (answers.grants n r = true → (pcpuExtendAreaMap c r (answers.grants n r)).mapUsed + 2 ≤
        (pcpuExtendAreaMap c r (answers.grants n r)).mapAlloc) := by
  obtain ⟨he, hu, -, hf, hh⟩ := extend_entries hk.counted.room r (answers.grants n r)
  refine ⟨extend_kept hmax hk fun hgrant => ?_, he, hf, hh, fun hgrant => ?_⟩
  · have hlow := of_decide_eq_true (Bool.and_eq_true_iff.mp hgrant).2
    omega
  · rw [hu, hgrant, pcpuExtendAreaMap, if_pos ⟨rfl, by omega⟩]
    exact hr

/-- The chunks of a list that is walked. -/
theorem onList_kept (h : Going w ask p) {slot id : ℕ} (hid : id ∈ p.sys.slots slot) :
    id < p.sys.count ∧ ChunkKept p.sys.unitSize (p.sys.chunks id) (w.live id) := by
  have hlt := ((h.kept.slotted.mem id slot).mp hid).1.1
  exact ⟨hlt, h.kept.chunks id hlt⟩

/-- A restart comes closer to the end with one map less to extend or one chunk less to create. -/
theorem restart_proceeds {s : PcpuSystem} {extended created : ℕ} (hkept : Kept ⟨s, w.live⟩)
    (hcount : s.count = w.sys.count + created) (honce : created ≤ 1) (hsame : SameBlocks w s)
    (hclears : Clears s.unitSize ask.size ask.align s.chunks (scanned s ask.size))
    (hnew : created = 1 → ∃ n ∈ scanned s ask.size, Serves ask.size ask.align (s.chunks n) ∧
      (s.chunks n).mapUsed + 2 ≤ (s.chunks n).mapAlloc)
    (hless : needing s + (1 - created) < needing p.sys + (1 - p.created)) :
    Proceeds w ask p (restart ask.size s extended created) := by
  have hahead : ahead s (.walk (pcpuSizeToSlot s.unitSize ask.size)
      (firstOf s (pcpuSizeToSlot s.unitSize ask.size))) = scanned s ask.size :=
    ahead_first hkept _
  refine ⟨⟨hkept, hcount, honce, hsame, ⟨(firstOf_spec s _).1, hclears, ?_, ?_⟩⟩, ?_, .inl ?_⟩
  · exact hahead.symm ▸ hclears
  · intro hcreated
    obtain ⟨n, hn, hserves, hroom⟩ := hnew hcreated
    exact ⟨n, hahead.symm ▸ hn, hn, hserves, hroom⟩
  · exact Prod.Lex.toLex_lt_toLex.mpr (.inl hless)
  · exact fun id hid => hahead.symm ▸ hid

/-- The walk goes on with the next list. -/
theorem round_nextList {slot k : ℕ} (h : Going w ask p) (hplace : p.place = .walk slot (.head k))
    (hslot : slot < pcpuNrSlots p.sys.unitSize) : Rounds w ask p := by
  have hstand := h.standing
  rw [hplace] at hstand
  have hk : k = slot := hstand.onList
  have hahead : ahead p.sys (.walk (slot + 1) (firstOf p.sys (slot + 1))) =
      ahead p.sys p.place := by
    rw [hplace, ahead_head]
    exact ahead_first h.kept (slot + 1)
  refine .inl ⟨⟨p.sys, p.extended, p.created, .walk (slot + 1) (firstOf p.sys (slot + 1))⟩, ?_, ?_⟩
  · rw [allocStep, hplace]
    dsimp only
    rw [if_neg (not_le.mpr hslot), if_pos hk]
  · have hahead' := hahead
    rw [hplace] at hahead'
    refine ⟨⟨h.kept, h.count, h.once, h.same, ⟨(firstOf_spec p.sys _).1, hstand.clears, ?_, ?_⟩⟩,
      ?_, .inr ⟨rfl, fun id hid => .inl ?_⟩⟩
    · rw [hahead']
      exact hstand.clearsAhead
    · rw [hahead']
      exact hstand.created
    · refine Prod.Lex.toLex_lt_toLex.mpr (.inr ⟨rfl, ?_⟩)
      rw [hahead, hplace, listsLeft, listsLeft]
      dsimp only
      omega
    · rw [hahead]
      exact hid

/-- The walk leaves a chunk behind that does not serve. -/
theorem passed_proceeds {slot id : ℕ} (h : Going w ask p)
    (hplace : p.place = .walk slot (.chunk id)) (hslot : slot < pcpuNrSlots p.sys.unitSize)
    (hno : ¬Serves ask.size ask.align (p.sys.chunks id))
    (hd : ChunkKept p.sys.unitSize d (w.live id)) (he : d.entries = (p.sys.chunks id).entries)
    (hf : d.freeSize = (p.sys.chunks id).freeSize)
    (hdslot : pcpuChunkSlot p.sys.unitSize d = pcpuChunkSlot p.sys.unitSize (p.sys.chunks id))
    (hpasses : Passes p.sys.unitSize ask.size ask.align (p.sys.chunks id) →
      Passes p.sys.unitSize ask.size ask.align d)
    (hmap : d.mapAlloc < d.mapUsed + 2 →
      (p.sys.chunks id).mapAlloc < (p.sys.chunks id).mapUsed + 2) :
    Proceeds w ask p ⟨{ p.sys with chunks := Function.update p.sys.chunks id d }, p.extended,
      p.created,
      .walk slot (nextOf { p.sys with chunks := Function.update p.sys.chunks id d } id)⟩ := by
  have hstand := h.standing
  rw [hplace] at hstand
  have hid : id ∈ p.sys.slots slot := hstand.onList
  obtain ⟨hlt, -⟩ := onList_kept h hid
  obtain ⟨hkept, hsame⟩ := going_store h hlt hd he hf hdslot
  obtain ⟨honList, hahead⟩ := @nextOf_spec _ hkept.slotted slot _ hslot hid
  generalize hs : ({ p.sys with chunks := Function.update p.sys.chunks id d } : PcpuSystem) = s
    at hkept hsame honList hahead ⊢
  have hslots : s.slots = p.sys.slots := by rw [← hs]
  have hunit : s.unitSize = p.sys.unitSize := by rw [← hs]
  have hchunks : s.chunks = Function.update p.sys.chunks id d := by rw [← hs]
  have hcount : s.count = p.sys.count := by rw [← hs]
  have hscan : scanned s ask.size = scanned p.sys ask.size := by
    rw [scanned, scanned, hslots, hunit]
  have hbefore : ahead p.sys p.place = id :: ahead s (.walk slot (nextOf s id)) := by
    rw [hplace, ← hahead, ahead_chunk, ahead_chunk, hslots, hunit]
  have hbefore' := hbefore
  rw [hplace] at hbefore'
  refine ⟨⟨hkept, hcount.trans h.count, h.once, hsame, ⟨honList, ?_, ?_, ?_⟩⟩, ?_, .inr ⟨hscan, ?_⟩⟩
  · rw [hscan, hunit, hchunks]
    exact clears_store (fun hc => absurd hc hno) hpasses hstand.clears
  · have hclears := hstand.clearsAhead
    rw [hbefore'] at hclears
    rw [hunit, hchunks]
    exact clears_store (fun hc => absurd hc hno) hpasses (hclears.resolve_left hno).2
  · intro hcreated
    obtain ⟨n, hn, hscanned, hserves, hroom⟩ := hstand.created hcreated
    have hne : n ≠ id := fun he => hno (he ▸ hserves)
    rw [hbefore'] at hn
    rw [hscan, hchunks]
    refine ⟨n, (List.mem_cons.mp hn).resolve_left hne, hscanned, ?_⟩
    rw [Function.update_of_ne hne]
    exact ⟨hserves, hroom⟩
  · have hneeding : needing s ≤ needing p.sys := by
      rw [← hs]
      exact needing_store hmap
    refine Prod.Lex.toLex_lt_toLex.mpr ?_
    dsimp only
    rw [hbefore, List.length_cons, hplace, listsLeft, listsLeft, hunit]
    omega
  · intro j hj
    rw [hbefore] at hj
    rcases List.mem_cons.mp hj with heq | hin
    · exact .inr ⟨slot, heq ▸ hplace⟩
    · exact .inl hin

/-- A call that extends a map fails or goes on with the map extended. -/
theorem extendMap_rounds {id : ℕ} (h : Going w ask p) (hid : id < p.sys.count)
    (hneed : (p.sys.chunks id).mapAlloc < (p.sys.chunks id).mapUsed + 2) {r : ℕ}
    (hr : (p.sys.chunks id).mapUsed + 2 ≤ r) (hdvd : 16 ∣ r) (next : PcpuSystem → AllocPoint)
    (hstep : allocStep ask p = extendMap ask.answers p id r next)
    (hnext : ∀ d : PcpuChunk, d.mapUsed + 2 ≤ d.mapAlloc →
      d.entries = (p.sys.chunks id).entries → d.contigHint = (p.sys.chunks id).contigHint →
      d.freeSize = (p.sys.chunks id).freeSize →
      Kept ⟨{ p.sys with chunks := Function.update p.sys.chunks id d }, w.live⟩ →
      SameBlocks w { p.sys with chunks := Function.update p.sys.chunks id d } →
      Proceeds w ask p (next { p.sys with chunks := Function.update p.sys.chunks id d })) :
    Rounds w ask p := by
  obtain ⟨hd, he, hf, hh, hroom⟩ := extend_spec (h.kept.chunks id hid) h.kept.unit.2 hneed hr hdvd
    ask.answers p.extended
  have hslot : pcpuChunkSlot p.sys.unitSize (pcpuExtendAreaMap (p.sys.chunks id) r
      (ask.answers.grants p.extended r)) = pcpuChunkSlot p.sys.unitSize (p.sys.chunks id) := by
    rw [pcpuChunkSlot, pcpuChunkSlot, hf, hh]
  obtain ⟨hkept, hsame⟩ := going_store h hid hd he hf hslot
  rw [extendMap, Int.toNat_natCast] at hstep
  dsimp only at hstep
  split at hstep
  · exact .inr ⟨_, hstep, .failed _ _ h.once hkept hsame⟩
  · rename_i hgoes
    have hgrant : ask.answers.grants p.extended r = true := by
      cases hg : ask.answers.grants p.extended r with
      | true => rfl
      | false =>
        rw [hg] at hgoes
        exact absurd rfl hgoes
    exact .inl ⟨_, hstep, hnext _ (hroom hgrant) he hh hf hkept hsame⟩

/-- A round at a chunk of the walk. -/
theorem round_chunk {slot id : ℕ} (hask : Asked ask) (h : Going w ask p)
    (hplace : p.place = .walk slot (.chunk id)) (hslot : slot < pcpuNrSlots p.sys.unitSize) :
    Rounds w ask p := by
  have hstand := h.standing
  rw [hplace] at hstand
  have hid : id ∈ p.sys.slots slot := hstand.onList
  obtain ⟨hlt, hchunk⟩ := onList_kept h hid
  by_cases hskip : toUnsigned 64 (p.sys.chunks id).contigHint < ask.size
  · have hstep : allocStep ask p =
        .inl ⟨p.sys, p.extended, p.created, .walk slot (nextOf p.sys id)⟩ := by
      rw [allocStep, hplace]
      dsimp only
      rw [if_neg (not_le.mpr hslot), if_pos hskip]
    have hproceeds := passed_proceeds h hplace hslot (fun hs => absurd hs.1 (not_le.mpr hskip))
      hchunk rfl rfl rfl (fun hp => hp) fun hm => hm
    rw [Function.update_eq_self] at hproceeds
    exact .inl ⟨_, hstep, hproceeds⟩
  · rcases pcpuNeedToExtend_spec hchunk.counted.room hchunk.alloc with
      ⟨hroom, hnone⟩ | ⟨hneed, r, hsome, hr, hdvd⟩
    · have hstep : allocStep ask p =
          if 0 ≤ (pcpuAllocArea (p.sys.chunks id) ask.size ask.align).1 then
            .inr (.returned
              (storeChunk p.sys id (pcpuAllocArea (p.sys.chunks id) ask.size ask.align).2) p.created
              (some (id, (pcpuAllocArea (p.sys.chunks id) ask.size ask.align).1.toNat)))
          else
            .inl ⟨storeChunk p.sys id (pcpuAllocArea (p.sys.chunks id) ask.size ask.align).2,
              p.extended, p.created, .walk slot (nextOf
                (storeChunk p.sys id (pcpuAllocArea (p.sys.chunks id) ask.size ask.align).2) id)⟩ := by
        rw [allocStep, hplace]
        dsimp only
        rw [if_neg (not_le.mpr hslot), if_neg hskip, hnone]
        dsimp only
        rw [if_neg (not_not.mpr rfl)]
      obtain ⟨hrefused, hserved⟩ := alloc_kept h.kept.unit.2 hchunk hask.pos hask.size hask.align
        hroom
      by_cases hok : 0 ≤ (pcpuAllocArea (p.sys.chunks id) ask.size ask.align).1
      · rw [if_pos hok] at hstep
        exact .inr ⟨_, hstep, .served _ _ _ _ h.once (store_kept h.kept hlt (hserved hok))⟩
      · rw [if_neg hok] at hstep
        have hneg := not_le.mp hok
        have hno : ¬Serves ask.size ask.align (p.sys.chunks id) := fun hs => hok hs.2
        have hahead := (nextOf_spec h.kept.slotted hslot hid).2
        have hclears := hstand.clearsAhead
        rw [hahead] at hclears
        have hsame := ((hclears.resolve_left hno).1.resolve_left hskip).2
        rw [storeChunk_same hsame] at hstep
        obtain ⟨hint, heq, -⟩ := refused_eq hneg
        have hproceeds := passed_proceeds h hplace hslot hno (hrefused hneg)
          (by rw [heq]; rfl) (by rw [heq]) hsame (fun _ => refused_passes hneg)
          (by rw [heq]; exact fun hm => hm)
        exact .inl ⟨_, hstep, hproceeds⟩
    · have hstep : allocStep ask p = extendMap ask.answers p id r fun s =>
          restart ask.size s (p.extended + 1) p.created := by
        rw [allocStep, hplace]
        dsimp only
        rw [if_neg (not_le.mpr hslot), if_neg hskip, hsome]
        dsimp only
        rw [if_pos (by omega)]
      refine extendMap_rounds h hlt hneed hr hdvd _ hstep ?_
      intro d hd he hh hf hkept hsame
      refine restart_proceeds hkept h.count h.once hsame ?_ (fun hcreated => ?_) ?_
      · exact clears_store (serves_congr he hh) (passes_congr he hh hf) hstand.clears
      · obtain ⟨n, -, hscanned, hserves, hroom⟩ := hstand.created hcreated
        have hne : n ≠ id := fun heq => by
          rw [heq] at hroom
          omega
        refine ⟨n, hscanned, ?_⟩
        dsimp only
        rw [Function.update_of_ne hne]
        exact ⟨hserves, hroom⟩
      · exact Nat.add_lt_add_right (needing_extended hlt hneed hd) _

/-- A new chunk adds no map to be extended. -/
theorem needing_linkNew (s : PcpuSystem) : needing (linkNew s) = needing s := by
  obtain ⟨-, hchunks, hcount, -⟩ := relocate_fields
    { s with
      chunks := Function.update s.chunks s.count (pcpuAllocChunk s.unitSize)
      count := s.count + 1 } s.count (-1)
  rw [needing, linkNew, hchunks, hcount]
  dsimp only
  have hroom : ¬(pcpuAllocChunk s.unitSize).mapAlloc < (pcpuAllocChunk s.unitSize).mapUsed + 2 :=
    (by decide : ¬16 < 1 + 2)
  rw [List.range_succ, List.countP_append, List.countP_singleton]
  simp only [Function.update_self, hroom, decide_false, Bool.false_eq_true, if_false, Nat.add_zero]
  rw [needing]
  refine List.countP_congr fun j hj => ?_
  have hne : j ≠ s.count := (List.mem_range.mp hj).ne
  simp only [Function.update_of_ne hne]

/-- A round behind the last list. -/
theorem round_exhausted {slot : ℕ} {cursor : Cursor} (hask : Asked ask) (h : Going w ask p)
    (hplace : p.place = .walk slot cursor) (hslot : pcpuNrSlots p.sys.unitSize ≤ slot) :
    Rounds w ask p := by
  have hstand := h.standing
  rw [hplace] at hstand
  have hnone : ahead p.sys (.walk slot cursor) = [] := by
    have hempty : p.sys.slots slot = [] := slots_beyond h.kept hslot
    have honList := hstand.onList
    cases cursor with
    | head k => rw [ahead_head, fromSlot_of_le (by omega)]
    | chunk id =>
      rw [OnList, hempty] at honList
      cases honList
  have hcreated : p.created = 0 := by
    by_contra hne
    have honce := h.once
    obtain ⟨n, hn, -⟩ := hstand.created (by omega)
    rw [hnone] at hn
    cases hn
  by_cases hmemory : ask.answers.chunkMemory p.created = true
  · have hstep : allocStep ask p =
        .inl (restart ask.size (linkNew p.sys) p.extended (p.created + 1)) := by
      rw [allocStep, hplace]
      dsimp only
      rw [if_pos hslot, if_pos hmemory]
    have hcount := h.count
    have hunit' := h.kept.unit
    dsimp only at hunit'
    have hreserved : p.sys.reserved ≠ some p.sys.count := fun hr =>
      absurd (h.kept.reserved _ hr) (lt_irrefl _)
    have hslots := linkNew_slots h.kept.slotted hreserved hunit'
    have hkept := link_kept h.kept
    have hneeding := needing_linkNew p.sys
    obtain ⟨hunit, hchunks, hcount', -⟩ := relocate_fields
      { p.sys with
        chunks := Function.update p.sys.chunks p.sys.count (pcpuAllocChunk p.sys.unitSize)
        count := p.sys.count + 1 } p.sys.count (-1)
    rw [← linkNew] at hunit hchunks hcount'
    dsimp only at hunit hchunks hcount' hkept
    have hstart : pcpuSizeToSlot p.sys.unitSize ask.size < pcpuNrSlots p.sys.unitSize := by
      have hsize := hask.size
      have hpage := hunit'.2
      rw [pageSize] at hpage
      exact (pcpuSizeToSlot_mono le_rfl (by omega) (by omega)).2
    obtain ⟨A, B, hold, hnew⟩ := @fromSlot_insert _ p.sys.slots (pcpuNrSlots p.sys.unitSize)
      (pcpuSizeToSlot p.sys.unitSize ask.size) (pcpuNrSlots p.sys.unitSize - 1) (by omega) (by omega) p.sys.count
    have hscan : scanned (linkNew p.sys) ask.size = A ++ p.sys.count :: B := by
      rw [scanned, hunit, hslots]
      exact hnew
    have hfresh : (linkNew p.sys).chunks p.sys.count = pcpuAllocChunk p.sys.unitSize := by
      rw [hchunks, Function.update_self]
    have hserves : Serves ask.size ask.align ((linkNew p.sys).chunks p.sys.count) := by
      rw [hfresh]
      exact created_serves hunit' hask.size hask.align
    refine .inl ⟨_, hstep, restart_proceeds hkept ?_ (by omega) ?_ ?_ ?_ ?_⟩
    · rw [hcount']
      omega
    · intro j hj
      rw [hchunks, Function.update_of_ne (by omega)]
      exact h.same j hj
    · have hclears : Clears p.sys.unitSize ask.size ask.align p.sys.chunks (A ++ B) :=
        hold ▸ hstand.clears
      rw [hscan, hunit]
      refine Clears.insert hserves (hclears.mono fun j hj => ?_)
      have hin : j ∈ scanned p.sys ask.size := by
        rw [scanned, hold]
        exact hj
      obtain ⟨k, -, -, hjk⟩ := mem_fromSlot.mp hin
      have hlt := ((h.kept.slotted.mem j k).mp hjk).1.1
      rw [hchunks, Function.update_of_ne hlt.ne]
      exact ⟨fun hs => hs, fun hp => hp⟩
    · intro _
      refine ⟨p.sys.count, ?_, hserves, ?_⟩
      · rw [hscan]
        exact List.mem_append_right _ List.mem_cons_self
      · rw [hfresh]
        exact (by decide : 1 + 2 ≤ 16)
    · omega
  · have hstep : allocStep ask p = .inr (.returned p.sys p.created none) := by
      rw [allocStep, hplace]
      dsimp only
      rw [if_pos hslot, if_neg hmemory]
    exact .inr ⟨_, hstep, .failed _ _ h.once h.kept h.same⟩

/-- A round before the reserved chunk. -/
theorem round_reserved {id : ℕ} (hask : Asked ask) (h : Going w ask p)
    (hplace : p.place = .reserved id) : Rounds w ask p := by
  have hstand := h.standing
  rw [hplace] at hstand
  have hlt : id < p.sys.count := h.kept.reserved id hstand
  have hchunk := h.kept.chunks id hlt
  dsimp only at hchunk
  rcases pcpuNeedToExtend_spec hchunk.counted.room hchunk.alloc with
    ⟨hroom, hnone⟩ | ⟨hneed, r, hsome, hr, hdvd⟩
  · have hstep : allocStep ask p = .inr (.returned
        (storeChunk p.sys id (pcpuAllocArea (p.sys.chunks id) ask.size ask.align).2) p.created
        (if 0 ≤ (pcpuAllocArea (p.sys.chunks id) ask.size ask.align).1 then
          some (id, (pcpuAllocArea (p.sys.chunks id) ask.size ask.align).1.toNat) else none)) := by
      rw [allocStep, hplace]
      dsimp only
      rw [hnone]
      dsimp only
      rw [if_neg (not_not.mpr rfl)]
    obtain ⟨hrefused, hserved⟩ := alloc_kept h.kept.unit.2 hchunk hask.pos hask.size hask.align
      hroom
    by_cases hok : 0 ≤ (pcpuAllocArea (p.sys.chunks id) ask.size ask.align).1
    · rw [if_pos hok] at hstep
      exact .inr ⟨_, hstep, .served _ _ _ _ h.once (store_kept h.kept hlt (hserved hok))⟩
    · rw [if_neg hok] at hstep
      have hneg := not_le.mp hok
      have hkept := store_kept h.kept hlt (hrefused hneg)
      rw [Function.update_eq_self] at hkept
      refine .inr ⟨_, hstep, .failed _ _ h.once hkept fun j hj => ?_⟩
      obtain ⟨-, hchunks, -, -⟩ := relocate_fields
        { p.sys with
          chunks := Function.update p.sys.chunks id
            (pcpuAllocArea (p.sys.chunks id) ask.size ask.align).2 } id
        (pcpuChunkSlot p.sys.unitSize (p.sys.chunks id))
      rw [storeChunk, hchunks]
      dsimp only
      have hold := h.same j hj
      by_cases hjid : j = id
      · obtain ⟨hint, heq, -⟩ := refused_eq hneg
        rw [hjid] at hold ⊢
        rw [Function.update_self, heq]
        exact hold
      · rw [Function.update_of_ne hjid]
        exact hold
  · have hstep : allocStep ask p = extendMap ask.answers p id r fun s =>
        ⟨s, p.extended + 1, p.created, p.place⟩ := by
      rw [allocStep, hplace]
      dsimp only
      rw [hsome]
      dsimp only
      rw [if_pos (by omega)]
    refine extendMap_rounds h hlt hneed hr hdvd _ hstep ?_
    intro d hd he hh hf hkept hsame
    refine ⟨⟨hkept, h.count, h.once, hsame, ?_⟩, ?_, .inr ⟨rfl, fun j hj => ?_⟩⟩
    · rw [hplace]
      exact hstand
    · exact Prod.Lex.toLex_lt_toLex.mpr
        (.inl (Nat.add_lt_add_right (needing_extended hlt hneed hd) _))
    · rw [hplace] at hj
      cases hj

/-- Every round of a call ends it as it is to end or brings it closer to its end. -/
theorem rounds (hask : Asked ask) (h : Going w ask p) : Rounds w ask p := by
  cases hplace : p.place with
  | reserved id => exact round_reserved hask h hplace
  | walk slot cursor =>
    by_cases hslot : slot < pcpuNrSlots p.sys.unitSize
    · cases cursor with
      | head k => exact round_nextList h hplace hslot
      | chunk id => exact round_chunk hask h hplace hslot
    · exact round_exhausted hask h hplace (not_lt.mp hslot)

end BiscuitOS.PercpuSearch
