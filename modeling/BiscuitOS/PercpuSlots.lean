import BiscuitOS.BucketLists
import BiscuitOS.LoopRun
import BiscuitOS.PercpuFirst
import BiscuitOS.SlubLayout

/-!
# Chunks on the slot lists

The search of `pcpu_alloc` of `mm/percpu.c` through the lists `pcpu_slot`. A
chunk stands on the list for its `free_size`, a full one on the first list and
an empty one on the last. An allocation or a release changes the counters of a
chunk and moves it. The search goes on from the `list` of the chunk at hand,
also where that chunk was moved.
-/

namespace BiscuitOS.PercpuSlots

open MachineWord TransitionRun LoopRun BucketLists PercpuModel PercpuHistory PercpuFirst
open SlubLayout (fls)

/-- The chunks and the lists that they stand on. -/
structure PcpuSystem where
  /-- `pcpu_unit_size`. -/
  unitSize : ℕ
  /-- The chunks by number. -/
  chunks : ℕ → PcpuChunk
  /-- How many there are. -/
  count : ℕ
  /-- `pcpu_reserved_chunk`. -/
  reserved : Option ℕ
  /-- The chunks on each list of `pcpu_slot`, in order. -/
  slots : ℕ → List ℕ

/-- `PCPU_SLOT_BASE_SHIFT`. -/
def pcpuSlotBaseShift : ℕ := 5

/-- `__pcpu_size_to_slot`. -/
def sizeToSlot (size : ℤ) : ℕ := max (fls size + 2 - pcpuSlotBaseShift) 1

/-- `pcpu_nr_slots`. -/
def pcpuNrSlots (unitSize : ℕ) : ℕ := sizeToSlot unitSize + 2

/-- `pcpu_size_to_slot`. -/
def pcpuSizeToSlot (unitSize : ℕ) (size : ℤ) : ℕ :=
  if size = unitSize then pcpuNrSlots unitSize - 1 else sizeToSlot size

/-- `pcpu_chunk_slot`. -/
def pcpuChunkSlot (unitSize : ℕ) (c : PcpuChunk) : ℕ :=
  if belowInt c.freeSize ∨ belowInt c.contigHint then 0 else pcpuSizeToSlot unitSize c.freeSize

/-- `pcpu_chunk_relocate`. -/
def pcpuChunkRelocate (s : PcpuSystem) (id : ℕ) (oslot : ℤ) : PcpuSystem :=
  let nslot := pcpuChunkSlot s.unitSize (s.chunks id)
  if s.reserved ≠ some id ∧ oslot ≠ nslot then
    { s with
      slots := if oslot < nslot then moveHead s.slots id nslot else moveTail s.slots id nslot }
  else s

/-- A chunk with changed counters is relocated. -/
def storeChunk (s : PcpuSystem) (id : ℕ) (c : PcpuChunk) : PcpuSystem :=
  pcpuChunkRelocate { s with chunks := Function.update s.chunks id c } id
    (pcpuChunkSlot s.unitSize (s.chunks id))

/-- The loop of `pcpu_need_to_extend` on an `int`, with the rounds left; without an end it stays at
zero after fewer. -/
def doubleUntil (bound : ℤ) : ℕ → ℤ → Option ℤ
  | 0, _ => none
  | rounds + 1, newAlloc =>
    if newAlloc < bound then doubleUntil bound rounds (toSigned 32 (newAlloc * 2))
    else some newAlloc

/-- `pcpu_need_to_extend`; nothing where its loop never ends. -/
def pcpuNeedToExtend (c : PcpuChunk) : Option ℤ :=
  if c.mapUsed + 2 ≤ c.mapAlloc then some 0 else doubleUntil (c.mapUsed + 2) 32 pcpuDflMapAlloc

/-- What the memory allocations of a call of `pcpu_alloc` answer. -/
structure Answers where
  /-- Whether `pcpu_extend_area_map` gets a new map, by its calls. -/
  mapMemory : ℕ → Bool
  /-- Whether the value is negative that `pcpu_extend_area_map` leaves where it returns none. -/
  noValue : ℕ → Bool
  /-- Whether `pcpu_create_chunk` gets its memory. -/
  chunkMemory : ℕ → Bool

/-- Whether the `n`-th `pcpu_extend_area_map` succeeds. A size with a low word of zero is refused by
`vzalloc`. -/
def Answers.grants (answers : Answers) (n : ℕ) (newAlloc : ℤ) : Bool :=
  answers.mapMemory n && decide (newAlloc * 4 < 2 ^ 32)

/-- What a link of a list leads to. -/
inductive Cursor
  /-- A chunk. -/
  | chunk (id : ℕ)
  /-- The head of a list. -/
  | head (slot : ℕ)

/-- Where `pcpu_alloc` stands. -/
inductive Place
  /-- Before the reserved chunk. -/
  | reserved (id : ℕ)
  /-- Within the walk through list `slot`. -/
  | walk (slot : ℕ) (cursor : Cursor)

/-- The state of a call of `pcpu_alloc`. -/
structure AllocPoint where
  /-- The chunks and the lists. -/
  sys : PcpuSystem
  /-- The maps extended so far. -/
  extended : ℕ
  /-- The chunks created so far. -/
  created : ℕ
  /-- Where it stands. -/
  place : Place

/-- How a call of `pcpu_alloc` ends. -/
inductive AllocResult
  /-- It returns an area of a chunk or none. -/
  | returned (sys : PcpuSystem) (created : ℕ) (area : Option (ℕ × ℕ))
  /-- It takes the head of another list for a chunk. -/
  | astray

/-- An allocation that is asked for. -/
structure Request where
  /-- The size. -/
  size : ℕ
  /-- The alignment. -/
  align : ℕ
  /-- Whether the reserved chunk is to serve it. -/
  reserved : Bool
  /-- The memory there is. -/
  answers : Answers

/-- The first link of a list. -/
def firstOf (s : PcpuSystem) (slot : ℕ) : Cursor :=
  match (s.slots slot).head? with
  | some id => .chunk id
  | none => .head slot

/-- The link of a chunk, on whichever list it stands. -/
def nextOf (s : PcpuSystem) (id : ℕ) : Cursor :=
  match (List.range (pcpuNrSlots s.unitSize)).find? fun k => decide (id ∈ s.slots k) with
  | some k =>
    match entryAfter id (s.slots k) with
    | some j => .chunk j
    | none => .head k
  | none => .chunk id

/-- The label `restart`. -/
def restart (size : ℕ) (s : PcpuSystem) (extended created : ℕ) : AllocPoint :=
  let slot := pcpuSizeToSlot s.unitSize size
  ⟨s, extended, created, .walk slot (firstOf s slot)⟩

/-- A chunk made by `pcpu_create_chunk` and relocated. -/
def linkNew (s : PcpuSystem) : PcpuSystem :=
  pcpuChunkRelocate
    { s with
      chunks := Function.update s.chunks s.count (pcpuAllocChunk s.unitSize)
      count := s.count + 1 } s.count (-1)

/-- The map of a chunk is extended and the call goes on as given, or fails. -/
def extendMap (answers : Answers) (p : AllocPoint) (id : ℕ) (newAlloc : ℤ)
    (next : PcpuSystem → AllocPoint) : AllocPoint ⊕ AllocResult :=
  let succeeds := answers.grants p.extended newAlloc
  let sys :=
    { p.sys with
      chunks := Function.update p.sys.chunks id
        (pcpuExtendAreaMap (p.sys.chunks id) newAlloc.toNat succeeds) }
  if !succeeds || answers.noValue p.extended then .inr (.returned sys p.created none)
  else .inl (next sys)

/-- One round of `pcpu_alloc`. `pcpu_populate_chunk` only clears the bytes of the area, which are
not modelled. -/
def allocStep (ask : Request) (p : AllocPoint) : AllocPoint ⊕ AllocResult :=
  match p.place with
  | .reserved id =>
    match pcpuNeedToExtend (p.sys.chunks id) with
    | none => .inl p
    | some newAlloc =>
      if newAlloc ≠ 0 then
        extendMap ask.answers p id newAlloc fun s => ⟨s, p.extended + 1, p.created, p.place⟩
      else
        let r := pcpuAllocArea (p.sys.chunks id) ask.size ask.align
        .inr (.returned (storeChunk p.sys id r.2) p.created
          (if 0 ≤ r.1 then some (id, r.1.toNat) else none))
  | .walk slot cursor =>
    if pcpuNrSlots p.sys.unitSize ≤ slot then
      if ask.answers.chunkMemory p.created then
        .inl (restart ask.size (linkNew p.sys) p.extended (p.created + 1))
      else .inr (.returned p.sys p.created none)
    else
      match cursor with
      | .head k =>
        if k = slot then
          .inl ⟨p.sys, p.extended, p.created, .walk (slot + 1) (firstOf p.sys (slot + 1))⟩
        else .inr .astray
      | .chunk id =>
        if toUnsigned 64 (p.sys.chunks id).contigHint < ask.size then
          .inl ⟨p.sys, p.extended, p.created, .walk slot (nextOf p.sys id)⟩
        else
          match pcpuNeedToExtend (p.sys.chunks id) with
          | none => .inl p
          | some newAlloc =>
            if newAlloc ≠ 0 then
              extendMap ask.answers p id newAlloc fun s =>
                restart ask.size s (p.extended + 1) p.created
            else
              let r := pcpuAllocArea (p.sys.chunks id) ask.size ask.align
              let sys := storeChunk p.sys id r.2
              if 0 ≤ r.1 then .inr (.returned sys p.created (some (id, r.1.toNat)))
              else .inl ⟨sys, p.extended, p.created, .walk slot (nextOf sys id)⟩

/-- Where `pcpu_alloc` starts, or how it ends at once. -/
def allocStart (s : PcpuSystem) (ask : Request) : AllocPoint ⊕ AllocResult :=
  if ask.size = 0 ∨ pcpuMinUnitSize < ask.size ∨ pageSize < ask.align then
    .inr (.returned s 0 none)
  else
    match if ask.reserved then s.reserved else none with
    | some id =>
      if toUnsigned 64 (s.chunks id).contigHint < ask.size then .inr (.returned s 0 none)
      else .inl ⟨s, 0, 0, .reserved id⟩
    | none => .inl (restart ask.size s 0 0)

/-- The chunks and the areas allocated from each and not freed since. -/
structure PcpuWorld where
  /-- The chunks and the lists. -/
  sys : PcpuSystem
  /-- The live areas of each chunk. -/
  live : ℕ → List Area

/-- What callers ask for. -/
inductive PcpuOp
  /-- `__alloc_percpu`, or an allocation from the reserved chunk, which returns within `fuel`
  rounds. -/
  | alloc (ask : Request) (fuel : ℕ)
  /-- `free_percpu` of an area at an offset of a chunk. -/
  | free (id freeme : ℕ)

end BiscuitOS.PercpuSlots
