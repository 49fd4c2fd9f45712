import BiscuitOS.PercpuHistory

/-!
# The first per-cpu chunk

The chunks that `pcpu_setup_first_chunk` of `mm/percpu.c` makes. The map of
the first one has an entry for the static and reserved bytes before the block
that can be allocated. With such bytes the entry is a held block like others,
and the chunk is sound as one that was allocated. Without them it is an entry
of no bytes: the blocks behind it are sound, and only the search for an area
at offset zero stops at it.
-/

namespace BiscuitOS.PercpuFirst

open MachineWord TransitionRun ArrayWindow BlockTiling PercpuModel PercpuBlocks PercpuHistory

/-- `PERCPU_DYNAMIC_EARLY_SLOTS`. -/
def percpuDynamicEarlySlots : ℕ := 128

/-- `PERCPU_DYNAMIC_EARLY_SIZE`. -/
def percpuDynamicEarlySize : ℕ := 12 * 1024

/-- `PCPU_MIN_UNIT_SIZE`. -/
def pcpuMinUnitSize : ℕ := 32 * 1024

/-- `struct pcpu_alloc_info`, as far as the sizes go. -/
structure PcpuAllocInfo where
  /-- `static_size`. -/
  staticSize : ℕ
  /-- `reserved_size`. -/
  reservedSize : ℕ
  /-- `dyn_size`. -/
  dynSize : ℕ
  /-- `unit_size`. -/
  unitSize : ℕ

/-- The map with an entry for `held` bytes and one for `free` bytes. -/
def earlyMap (held free : ℤ) : ℕ → ℤ :=
  Function.update (Function.update (fun _ => 0) 0 held) 1 free

/-- The chunk `schunk` of `pcpu_setup_first_chunk`. -/
def staticChunk (ai : PcpuAllocInfo) : PcpuChunk :=
  let free := toSigned 32 (if ai.reservedSize ≠ 0 then ai.reservedSize else ai.dynSize)
  { mapUsed := if free ≠ 0 then 2 else 1
    mapAlloc := percpuDynamicEarlySlots
    map := earlyMap (toSigned 32 (-ai.staticSize)) free
    freeSize := free
    contigHint := free }

/-- The chunk `dchunk` of `pcpu_setup_first_chunk`, behind `pcpu_reserved_chunk_limit` bytes. -/
def dynamicChunk (ai : PcpuAllocInfo) : PcpuChunk :=
  let free := toSigned 32 ai.dynSize
  { mapUsed := 2
    mapAlloc := percpuDynamicEarlySlots
    map := earlyMap (-toSigned 32 (ai.staticSize + ai.reservedSize)) free
    freeSize := free
    contigHint := free }

/-- `pcpu_first_chunk`, which `pcpu_setup_first_chunk` links. -/
def pcpuFirstChunk (ai : PcpuAllocInfo) : PcpuChunk :=
  if ai.reservedSize ≠ 0 ∧ ai.dynSize ≠ 0 then dynamicChunk ai else staticChunk ai

/-- The checks of `pcpu_setup_first_chunk` on the sizes, for a unit of an `int` whose parts are
summed without a wrap. -/
structure Accepted (ai : PcpuAllocInfo) : Prop where
  /-- The unit has room for all parts. -/
  room : ai.staticSize + ai.reservedSize + ai.dynSize ≤ ai.unitSize
  /-- The unit has whole pages. -/
  pages : pageSize ∣ ai.unitSize
  /-- It is not too small. -/
  unit : pcpuMinUnitSize ≤ ai.unitSize
  /-- The dynamic part is not too small. -/
  dyn : percpuDynamicEarlySize ≤ ai.dynSize
  /-- `pcpu_unit_size` is an `int`. -/
  int : ai.unitSize + pageSize ≤ 2 ^ 31

/-- The bytes before the block that can be allocated. -/
def PcpuAllocInfo.heldSize (ai : PcpuAllocInfo) : ℕ := ai.staticSize + ai.reservedSize

/-- The first chunk has two entries. -/
theorem pcpuFirstChunk_eq {ai : PcpuAllocInfo} (h : Accepted ai) :
    pcpuFirstChunk ai = ⟨2, percpuDynamicEarlySlots, earlyMap (-ai.heldSize) ai.dynSize,
      ai.dynSize, ai.dynSize⟩ := by
  have hroom := h.room
  have hint := h.int
  have hdyn := h.dyn
  rw [percpuDynamicEarlySize] at hdyn
  rw [pageSize] at hint
  have hd : toSigned 32 (ai.dynSize : ℤ) = ai.dynSize := toSigned_of_lt (by omega) (by omega)
  have hne : (ai.dynSize : ℤ) ≠ 0 := by omega
  rw [pcpuFirstChunk, PcpuAllocInfo.heldSize]
  by_cases hres : ai.reservedSize = 0
  · have hs : toSigned 32 (-(ai.staticSize : ℤ)) = -(ai.staticSize : ℤ) := by
      rw [toSigned]
      exact Int.bmod_eq_of_le (by omega) (by omega)
    rw [if_neg fun hc => hc.1 hres, staticChunk]
    simp only [hres, ne_eq, not_true_eq_false, if_false, hd, hs, hne, not_false_eq_true, if_true,
      Nat.add_zero]
  · have hs : toSigned 32 ((ai.staticSize : ℤ) + ai.reservedSize) =
        ((ai.staticSize + ai.reservedSize : ℕ) : ℤ) := by
      rw [← Nat.cast_add]
      exact toSigned_of_lt (by omega) (by omega)
    rw [if_pos ⟨hres, by omega⟩, dynamicChunk]
    simp only [hd, hs]

/-- The entries of an early map. -/
theorem early_entries (held free freeSize hint : ℤ) (slots : ℕ) :
    (⟨2, slots, earlyMap held free, freeSize, hint⟩ : PcpuChunk).entries = [held, free] := by
  rw [PcpuChunk.entries, window_succ, window_succ, window_zero]
  simp only [earlyMap, Function.update_self, Nat.zero_add]
  rw [Function.update_of_ne (by decide), Function.update_self]

/-- They are the bytes held and the free block. -/
theorem pcpuFirstChunk_entries {ai : PcpuAllocInfo} (h : Accepted ai) :
    (pcpuFirstChunk ai).entries = [-(ai.heldSize : ℤ), (ai.dynSize : ℤ)] := by
  rw [pcpuFirstChunk_eq h, early_entries]

/-- A chunk without its first entry. -/
def tailChunk (c : PcpuChunk) : PcpuChunk :=
  { c with map := fun i => c.map (i + 1), mapUsed := c.mapUsed - 1, mapAlloc := c.mapAlloc - 1 }

/-- Its entries are the others. -/
theorem tailChunk_entries {c : PcpuChunk} {x : ℤ} {l : List ℤ} (h : c.entries = x :: l) :
    (tailChunk c).entries = l := by
  have hused := mapUsed_of_entries (A := []) h
  have hcount : c.mapUsed = l.length + 1 := by
    rw [List.length_nil] at hused
    omega
  rw [PcpuChunk.entries, hcount, window_succ, List.cons.injEq] at h
  rw [PcpuChunk.entries, tailChunk, hcount, Nat.add_sub_cancel]
  exact (window_congr fun k _ => by rw [Nat.zero_add, Nat.zero_add, Nat.add_comm]).trans h.2

/-- Taking a block behind the first entry. -/
theorem taken_tail {c : PcpuChunk} {A B : List ℤ} {y b head tail hint off : ℤ} {isLast : Bool}
    {r : ℤ × PcpuChunk} (h : Taken c (y :: A) B b head tail hint off isLast r) :
    Taken (tailChunk c) A B b head tail hint off isLast (r.1, tailChunk r.2) where
  offset := h.offset
  entries := tailChunk_entries h.entries
  freeSize := h.freeSize
  mapAlloc := congrArg (· - 1) h.mapAlloc
  passed := h.passed
  headHint := h.headHint
  tailHint := h.tailHint
  oldHint := h.oldHint

/-- Releasing a block behind the first entry. -/
theorem released_tail {c t : PcpuChunk} {A P Q B : List ℤ} {x y : ℤ}
    (h : Released c (y :: A) P Q B x t) : Released (tailChunk c) A P Q B x (tailChunk t) where
  entries := tailChunk_entries h.entries
  freeSize := h.freeSize
  contigHint := h.contigHint
  mapAlloc := congrArg (· - 1) h.mapAlloc
  mapUsed := Nat.sub_le_sub_right h.mapUsed 1
  before := h.before.imp_left fun hb => ⟨hb.1, fun z hz => hb.2 z (by
    rw [List.getLast?_cons]
    rw [Option.mem_def] at hz
    rw [hz]
    rfl)⟩
  after := h.after

/-- Only the entries, the counters and the room of a chunk matter. -/
theorem sound_congr {unitSize : ℕ} {c d : PcpuChunk} {live : List Area}
    (h : ChunkSound unitSize ⟨c, live⟩) (hentries : d.entries = c.entries)
    (hfree : d.freeSize = c.freeSize) (hhint : d.contigHint = c.contigHint)
    (hroom : d.mapUsed ≤ d.mapAlloc) : ChunkSound unitSize ⟨d, live⟩ where
  nonzero := hentries ▸ h.nonzero
  extent := hentries ▸ h.extent
  freeSize := hfree.trans (hentries ▸ h.freeSize)
  contigHint := by
    have hle := h.contigHint
    dsimp only at hle ⊢
    rw [hentries, hhint]
    exact hle
  separated := hentries ▸ h.separated
  starts := hentries ▸ h.starts
  covers := hentries ▸ h.covers
  aligned := h.aligned
  room := hroom

/-- The blocks of the first chunk: those behind an entry of no bytes, or all with the bytes held as
one more area. -/
inductive FirstSound (held free : ℕ) (w : ChunkWorld) : Prop
  /-- Nothing is held. -/
  | nothing (none : held = 0) (entries : ∃ E, w.chunk.entries = 0 :: E)
      (room : w.chunk.mapUsed ≤ w.chunk.mapAlloc)
      (sound : ChunkSound free ⟨tailChunk w.chunk, w.live⟩) : FirstSound held free w
  /-- Bytes are held. -/
  | something (pos : 0 < held)
      (sound : ChunkSound (held + free) ⟨w.chunk, w.live ++ [⟨0, held, 1⟩]⟩) :
      FirstSound held free w

/-- A free is not one at offset zero behind an entry of no bytes. -/
def PastNothing (c : PcpuChunk) : ChunkOp → Prop
  | .free freeme => ¬(freeme = 0 ∧ c.map 0 = 0)
  | _ => True

instance (c : PcpuChunk) : (op : ChunkOp) → Decidable (PastNothing c op)
  | .alloc _ _ => isTrue trivial
  | .free freeme => inferInstanceAs (Decidable (¬(freeme = 0 ∧ c.map 0 = 0)))
  | .extend _ _ => isTrue trivial

/-- A chunk made at setup, with its bytes held and its free block. -/
theorem early_sound (held : ℕ) {free : ℕ} (hfree : 0 < free) :
    FirstSound held free
      ⟨⟨2, percpuDynamicEarlySlots, earlyMap (-held) free, free, free⟩, []⟩ := by
  have hentries := early_entries (-(held : ℤ)) free free free percpuDynamicEarlySlots
  generalize hc : (⟨2, percpuDynamicEarlySlots, earlyMap (-held) free, free, free⟩ : PcpuChunk) = c
    at hentries
  have hused : c.mapUsed = 2 := by rw [← hc]
  have halloc : c.mapAlloc = 128 := by
    rw [← hc]
    rfl
  have hsize : c.freeSize = free := by rw [← hc]
  have hhint : c.contigHint = free := by rw [← hc]
  by_cases hheld : held = 0
  · have htail := tailChunk_entries hentries
    have hfresh := pcpuAllocChunk_sound hfree
    rw [hheld] at hentries
    refine .nothing hheld ⟨_, hentries⟩ ?_ (sound_congr hfresh ?_ ?_ ?_ ?_)
    · simp only [hused, halloc]
      decide
    · rw [htail]
      rfl
    · simp only [tailChunk, hsize]
      rfl
    · simp only [tailChunk, hhint]
      rfl
    · simp only [tailChunk, hused, halloc]
      decide
  · refine .something (Nat.pos_of_ne_zero hheld) ?_
    have hneg : -(held : ℤ) < 0 := by omega
    have hpos : 0 < (free : ℤ) := by omega
    constructor
    · rw [hentries]
      intro x hx
      simp only [List.mem_cons, List.not_mem_nil, or_false] at hx
      omega
    · rw [hentries]
      simp only [List.map_cons, List.map_nil, List.sum_cons, List.sum_nil]
      omega
    · rw [hentries, hsize]
      simp only [List.map_cons, List.map_nil, List.sum_cons, List.sum_nil]
      omega
    · rw [hentries, hhint]
      intro x hx hxpos
      simp only [List.mem_cons, List.not_mem_nil, or_false] at hx
      omega
    · rw [hentries]
      exact List.isChain_pair.mpr (by omega)
    · rw [hentries, heldStarts_cons_held _ _ hneg, heldStarts_cons_free _ _ hpos.le]
      exact List.Perm.refl _
    · intro a ha
      rw [List.mem_singleton.mp ha, hentries]
      exact ⟨-(held : ℤ), List.mem_cons_self, hneg,
        (Int.natAbs_neg _).ge.trans' (Int.natAbs_natCast _).ge⟩
    · intro a ha
      rw [List.mem_singleton.mp ha]
      exact one_dvd _
    · simp only [hused, halloc]
      decide

/-- The first chunk as it was made. -/
theorem pcpuFirstChunk_sound {ai : PcpuAllocInfo} (h : Accepted ai) :
    FirstSound ai.heldSize ai.dynSize ⟨pcpuFirstChunk ai, []⟩ := by
  have hdyn := h.dyn
  rw [percpuDynamicEarlySize] at hdyn
  rw [pcpuFirstChunk_eq h]
  exact early_sound ai.heldSize (by omega)

variable {held free : ℕ} {w : ChunkWorld}

/-- The entries behind an entry of no bytes. -/
theorem tail_entries {c : PcpuChunk} (h : ∃ E, c.entries = 0 :: E) :
    c.entries = 0 :: (tailChunk c).entries := by
  obtain ⟨E, he⟩ := h
  rw [tailChunk_entries he, he]

/-- Entries behind an entry of no bytes that start with that entry. -/
theorem cons_of_append {A B E : List ℤ} {x : ℤ} (h : (0 : ℤ) :: E = A ++ x :: B) (hx : x ≠ 0) :
    ∃ A', A = 0 :: A' ∧ E = A' ++ x :: B := by
  cases A with
  | nil =>
    rw [List.nil_append, List.cons.injEq] at h
    exact absurd h.1.symm hx
  | cons y A' =>
    rw [List.cons_append, List.cons.injEq] at h
    exact ⟨A', by rw [h.1], h.2⟩

/-- The step of an allocation behind an entry of no bytes. -/
theorem alloc_nothing {size align : ℕ} (hmax : free + pageSize ≤ 2 ^ 31)
    (hentries : ∃ E, w.chunk.entries = 0 :: E) (hs : ChunkSound free ⟨tailChunk w.chunk, w.live⟩)
    (hlegal : Legal w (.alloc size align)) {t : ChunkWorld}
    (hstep : perform w (.alloc size align) = some t) :
    (∃ E, t.chunk.entries = 0 :: E) ∧ t.chunk.mapUsed ≤ t.chunk.mapAlloc ∧
      ChunkSound free ⟨tailChunk t.chunk, t.live⟩ := by
  obtain ⟨hpos, hsize, halign, hroom⟩ := hlegal
  have he := tail_entries hentries
  have hext : extent w.chunk.entries = free := by
    rw [he, extent_cons, Int.natAbs_zero, Nat.zero_add]
    exact hs.extent
  have hsep : w.chunk.entries.IsChain NotBothFree := by
    rw [he]
    exact (isChain_held_iff le_rfl [] _).mpr ⟨List.isChain_nil, hs.separated⟩
  have hroom' : (tailChunk w.chunk).mapUsed + 2 ≤ (tailChunk w.chunk).mapAlloc := by
    have hused := mapUsed_of_entries (A := []) he
    simp only [tailChunk]
    omega
  have hused : ∀ c : PcpuChunk, c.mapAlloc = w.chunk.mapAlloc → (tailChunk c).mapUsed ≤
      (tailChunk c).mapAlloc → c.mapUsed ≤ c.mapAlloc := by
    intro c hc hle
    simp only [tailChunk] at hle
    omega
  have hend := pcpuAllocArea_ends hpos hsize halign (hext.symm ▸ hmax) hsep
  rw [perform, Option.some.injEq] at hstep
  rw [← hstep]
  generalize pcpuAllocArea w.chunk size align = r at hend ⊢
  cases hend with
  | full hint result covers =>
    have hr := hs.room
    rw [result, if_pos (show (-1 : ℤ) < 0 by decide)]
    refine ⟨hentries, hused _ rfl hr, { hs with contigHint := fun y hy hypos => ?_ }⟩
    refine covers y ?_ hypos
    rw [he]
    exact List.mem_cons_of_mem _ hy
  | apart A B x hint isLast head parts fits gap taken =>
    rw [he] at parts
    have hx : x ≠ 0 := fits.free.ne'
    obtain ⟨A', hA, hE⟩ := cons_of_append parts hx
    rw [hA] at taken
    have hoff : extent A = extent A' := by
      rw [hA, extent_cons, Int.natAbs_zero, Nat.zero_add]
    have htaken := taken_tail taken
    rw [← hA, hoff] at htaken
    obtain ⟨htail, htail'⟩ := tailOf_bounds fits.le
    have haligned : align ∣ extent A' + (head : ℤ).toNat := by
      rw [← hoff]
      exact fits.aligned
    have hsound := taken_sound hs hE fits.free (Int.natCast_nonneg head) htail (by omega)
      (by omega) hpos hroom' fits.last
      (fun y hy => fits.covers y (by rw [hA]; exact List.mem_cons_of_mem _ hy)) haligned htaken
    rw [if_neg (not_lt.mpr hsound.1)]
    refine ⟨⟨_, taken.entries⟩, hused _ taken.mapAlloc ?_, hsound.2⟩
    exact hsound.2.room
  | absorbed A B p x hint isLast head parts held' fits gap pos taken =>
    have hle := fits.le
    have hx : x ≠ 0 := fits.free.ne'
    rw [he] at parts
    have hA0 : ∃ A', A = 0 :: A' := by
      cases A with
      | nil =>
        rw [List.nil_append, List.singleton_append, List.cons.injEq] at parts
        have hzero := fits.first (by
          rw [List.nil_append, ← parts.1]
          rfl)
        omega
      | cons y A' =>
        rw [List.cons_append, List.cons_append, List.cons.injEq] at parts
        exact ⟨A', by rw [parts.1]⟩
    obtain ⟨A', hA⟩ := hA0
    have hE : (tailChunk w.chunk).entries = (A' ++ [p]) ++ x :: B := by
      rw [hA, List.cons_append, List.cons_append, List.cons.injEq] at parts
      exact parts.2
    have hp : p < 0 := by
      have hne := hs.nonzero p (by
        dsimp only
        rw [hE]
        exact List.mem_append_left _ (List.mem_append_right _ (List.mem_singleton_self p)))
      omega
    have hgrown := absorb_sound (head : ℤ) hs hE hp (Int.natCast_nonneg head) (by omega)
    obtain ⟨hentriesT, hfreeT, hhintT, hallocT, husedT⟩ := absorb_entries (head : ℤ) held' hE
    obtain ⟨hentriesC, hfreeC, hhintC, hallocC, husedC⟩ :=
      absorb_entries (head : ℤ) held' (he.trans parts)
    have hlater : (absorbHead w.chunk (A.length + 1) head).entries =
        0 :: (A' ++ (p - (head : ℤ)) :: (x - head) :: B) := by
      rw [hentriesC, hA, List.cons_append]
    have hsame := tailChunk_entries hlater
    have hnew : (tailChunk (absorbHead w.chunk (A.length + 1) head)).entries =
        (A' ++ [p - (head : ℤ)]) ++ (x - head) :: B := by
      rw [hsame, List.append_assoc]
      rfl
    have hsoundC : ChunkSound free ⟨tailChunk (absorbHead w.chunk (A.length + 1) head), w.live⟩ := by
      refine sound_congr hgrown (hsame.trans hentriesT.symm) (hfreeC.trans hfreeT.symm)
        (hhintC.trans hhintT.symm) ?_
      have hr := hs.room
      simp only [tailChunk, husedC, hallocC] at hr ⊢
      exact hr
    have hoff : extent (A ++ [p]) + head = extent (A' ++ [p - (head : ℤ)]) := by
      rw [hA]
      simp only [List.cons_append, extent_append, extent_cons, extent_nil, Int.natAbs_zero]
      omega
    have hoff' : extent (A ++ [p - (head : ℤ)]) = extent (A' ++ [p - (head : ℤ)]) := by
      rw [hA, List.cons_append, extent_cons, Int.natAbs_zero, Nat.zero_add]
    have htaken := taken
    rw [hA, List.cons_append] at htaken
    have htail := taken_tail htaken
    rw [← hA, ← List.cons_append, ← hA, hoff'] at htail
    have hfit : 0 + (size : ℤ) ≤ x - head := by omega
    obtain ⟨hrest, hrest'⟩ := tailOf_bounds hfit
    have haligned : align ∣ extent (A' ++ [p - (head : ℤ)]) + (0 : ℤ).toNat := by
      rw [Int.toNat_zero, Nat.add_zero, ← hoff]
      exact fits.aligned
    have hsound := taken_sound hsoundC hnew (by omega) le_rfl hrest (by omega) (by omega) hpos
      (by simp only [tailChunk, husedC, hallocC] at hroom' ⊢; exact hroom') fits.last
      (fun y hy hypos => by
        rw [List.mem_append, List.mem_singleton] at hy
        rcases hy with hy | hy
        · exact fits.covers y (by
            rw [hA]
            exact List.mem_append_left _ (List.mem_cons_of_mem _ hy)) hypos
        · omega)
      haligned htail
    rw [if_neg (not_lt.mpr hsound.1)]
    refine ⟨⟨_, htaken.entries⟩, hused _ (taken.mapAlloc.trans hallocC) ?_, hsound.2⟩
    exact hsound.2.room

/-- The search of `pcpu_free_area` finds the block behind some others, of which only the first may
have no bytes. -/
theorem findBlock_start {c : PcpuChunk} {L R : List ℤ} {x : ℤ} (he : c.entries = L ++ x :: R)
    (hnonzero : ∀ y ∈ L.tail, y ≠ 0) (hstart : L ≠ [] → extent L ≠ 0) :
    findBlock c (extent L) 0 0 c.mapUsed = L.length := by
  have hall : (∀ y ∈ L, y ≠ 0) → findBlock c (extent L) 0 0 c.mapUsed = L.length := by
    intro hne
    have hfind := findBlock_eq (i := 0) he hne (Nat.zero_add (extent L))
    rwa [Nat.zero_add] at hfind
  cases L with
  | nil => exact hall fun y hy => (by cases hy)
  | cons y L =>
    rw [List.tail_cons] at hnonzero
    by_cases hy : y = 0
    · have hne : extent (y :: L) ≠ 0 := hstart (List.cons_ne_nil _ _)
      rw [List.cons_append] at he
      have hused := mapUsed_of_entries (A := []) he
      have hmap := map_of_entries (A := []) he
      rw [List.length_nil] at hused hmap
      have hcount : c.mapUsed = (L ++ x :: R).length + 1 := by omega
      rw [PcpuChunk.entries, hcount, window_succ, List.cons.injEq] at he
      have hfind := @findBlock_eq _ (extent (y :: L)) 1 _ _ _ _ _ he.2 hnonzero (by
        rw [extent_cons, hy, Int.natAbs_zero])
      rw [hcount, findBlock, if_neg hne.symm, hmap, hy, Int.natAbs_zero, Nat.zero_add]
      rw [hy] at hfind
      rw [hfind, List.length_cons, Nat.add_comm]
    · refine hall fun z hz => ?_
      rcases List.mem_cons.mp hz with heq | hin
      · rw [heq]
        exact hy
      · exact hnonzero z hin

/-- Only the first entry may have no bytes. -/
theorem FirstSound.nonzero (hs : FirstSound held free w) : ∀ y ∈ w.chunk.entries.tail, y ≠ 0 := by
  intro y hy
  cases hs with
  | nothing none entries room sound =>
    rw [tail_entries entries, List.tail_cons] at hy
    exact sound.nonzero y hy
  | something pos sound => exact sound.nonzero y (List.mem_of_mem_tail hy)

/-- The block of a live area, which a free finds. -/
theorem FirstSound.found (hs : FirstSound held free w) {freeme : ℕ}
    (hlegal : Legal w (.free freeme)) (hpast : PastNothing w.chunk (.free freeme)) :
    ∃ L R x, w.chunk.entries = L ++ x :: R ∧ x < 0 ∧ extent L = freeme ∧ freeme ≠ 0 ∧
      findBlock w.chunk freeme 0 0 w.chunk.mapUsed = L.length := by
  obtain ⟨a, ha, hoffset⟩ := hlegal
  have hnonzero := hs.nonzero
  cases hs with
  | nothing none entries room sound =>
    have hmap : w.chunk.map 0 = 0 := map_of_entries (A := []) (tail_entries entries)
    have hne : freeme ≠ 0 := fun hzero => hpast ⟨hzero, hmap⟩
    obtain ⟨x, hmem, hneg, -⟩ := sound.covers a ha
    obtain ⟨L, R, he, ho⟩ := split_of_mem_blocks hmem
    rw [hoffset, Nat.zero_add] at ho
    have hall : w.chunk.entries = ((0 : ℤ) :: L) ++ x :: R := by
      rw [tail_entries entries, List.cons_append]
      exact congrArg (List.cons 0) he
    have hext : extent ((0 : ℤ) :: L) = freeme := by
      rw [extent_cons, Int.natAbs_zero, Nat.zero_add, ← ho]
    refine ⟨0 :: L, R, x, hall, hneg, hext, hne, ?_⟩
    rw [hall, List.cons_append, List.tail_cons] at hnonzero
    rw [← hext]
    exact findBlock_start hall (fun y hy => hnonzero y (List.mem_append_left _ hy))
      fun _ => hext ▸ hne
  | something pos sound =>
    obtain ⟨x, hmem, hneg, -⟩ := sound.covers a (List.mem_append_left _ ha)
    obtain ⟨L, R, he, ho⟩ := split_of_mem_blocks hmem
    rw [hoffset, Nat.zero_add] at ho
    have hne : freeme ≠ 0 := by
      intro hzero
      have hnodup := sound.starts.nodup_iff.mpr (heldStarts_nodup sound.nonzero)
      rw [List.map_append, List.nodup_append] at hnodup
      exact hnodup.2.2 a.offset (List.mem_map_of_mem ha) 0 List.mem_cons_self
        (hoffset.trans hzero)
    refine ⟨L, R, x, he, hneg, ho.symm, hne, ?_⟩
    dsimp only at he
    rw [ho]
    exact findBlock_start he (fun y hy => sound.nonzero y (by
      dsimp only
      rw [he]
      exact List.mem_append_left _ (List.mem_of_mem_tail hy))) fun _ => ho ▸ hne

/-- The step of a release behind an entry of no bytes. -/
theorem free_nothing (hentries : ∃ E, w.chunk.entries = 0 :: E)
    (hroom : w.chunk.mapUsed ≤ w.chunk.mapAlloc)
    (hs : ChunkSound free ⟨tailChunk w.chunk, w.live⟩) {freeme : ℕ}
    (hlegal : Legal w (.free freeme)) (hmoves : MovesRight w.chunk (.free freeme))
    (hpast : PastNothing w.chunk (.free freeme)) {t : ChunkWorld}
    (hstep : perform w (.free freeme) = some t) :
    (∃ E, t.chunk.entries = 0 :: E) ∧ t.chunk.mapUsed ≤ t.chunk.mapAlloc ∧
      ChunkSound free ⟨tailChunk t.chunk, t.live⟩ := by
  obtain ⟨L, R, x, he, hneg, hoff, hne, hfind⟩ :=
    (FirstSound.nothing rfl hentries hroom hs).found hlegal hpast
  obtain ⟨A, P, Q, B, hL, hR, hr⟩ := pcpuFreeArea_released he hfind hmoves
  rw [perform, Option.some.injEq] at hstep
  rw [← hstep]
  obtain ⟨L', hL', hE⟩ := cons_of_append ((tail_entries hentries).symm.trans he) hneg.ne
  have hA : ∃ A', A = 0 :: A' := by
    cases A with
    | nil =>
      rw [List.nil_append] at hL
      rcases hr.before with ⟨hnil, _⟩ | ⟨p, hp, _⟩
      · rw [hL', hnil] at hL
        cases hL
      · rw [hL', hp, List.cons.injEq] at hL
        rw [hL', hL.2] at hoff
        exact absurd hoff.symm hne
    | cons y A' =>
      rw [hL', List.cons_append, List.cons.injEq] at hL
      exact ⟨A', by rw [hL.1]⟩
  obtain ⟨A', hA⟩ := hA
  rw [hA] at hr
  rw [hL', hA, List.cons_append, List.cons.injEq] at hL
  rw [hL.2, hR] at hE
  have hsound := released_sound hs (by dsimp only; rw [hE, List.append_assoc]; rfl) hneg
    (released_tail hr)
  have hext : extent A' + extent P = freeme := by
    rw [← extent_append, ← hL.2, ← hoff, hL', extent_cons, Int.natAbs_zero, Nat.zero_add]
  rw [hext] at hsound
  refine ⟨⟨_, hr.entries⟩, ?_, hsound⟩
  dsimp only
  rw [hr.mapAlloc]
  exact hr.mapUsed.trans hroom

/-- One operation keeps the first chunk sound. -/
theorem first_step (hmax : held + free + pageSize ≤ 2 ^ 31) {op : ChunkOp} {t : ChunkWorld}
    (hs : FirstSound held free w) (hlegal : Legal w op) (hmoves : MovesRight w.chunk op)
    (hpast : PastNothing w.chunk op) (hstep : perform w op = some t) : FirstSound held free t := by
  cases hs with
  | nothing none entries room sound =>
    cases op with
    | alloc size align =>
      obtain ⟨he, hr, hs⟩ := alloc_nothing (by omega) entries sound hlegal hstep
      exact .nothing none he hr hs
    | free freeme =>
      obtain ⟨he, hr, hs⟩ := free_nothing entries room sound hlegal hmoves hpast hstep
      exact .nothing none he hr hs
    | extend newAlloc succeeds =>
      obtain ⟨he, hu, ha, hf, hh⟩ := extend_entries room newAlloc succeeds
      rw [perform, Option.some.injEq] at hstep
      rw [← hstep]
      obtain ⟨E, hE⟩ := entries
      have hroom : (pcpuExtendAreaMap w.chunk newAlloc succeeds).mapUsed ≤
          (pcpuExtendAreaMap w.chunk newAlloc succeeds).mapAlloc := by
        rw [hu]
        exact room.trans ha
      refine .nothing none ⟨E, he.trans hE⟩ hroom (sound_congr sound ?_ hf hh ?_)
      · rw [tailChunk_entries (he.trans hE), tailChunk_entries hE]
      · exact Nat.sub_le_sub_right hroom 1
  | something pos sound =>
    have hlegal' : Legal ⟨w.chunk, w.live ++ [⟨0, held, 1⟩]⟩ op := by
      cases op with
      | alloc size align => exact hlegal
      | free freeme =>
        obtain ⟨a, ha, hoffset⟩ := hlegal
        exact ⟨a, List.mem_append_left _ ha, hoffset⟩
      | extend newAlloc succeeds => trivial
    cases op with
    | alloc size align =>
      obtain ⟨u, hu, hsu⟩ := alloc_sound hmax sound hlegal'
      rw [perform, Option.some.injEq] at hu hstep
      rw [← hstep]
      rw [← hu] at hsu
      refine .something pos ?_
      by_cases hneg : (pcpuAllocArea w.chunk size align).1 < 0
      · simp only [if_pos hneg] at hsu ⊢
        exact hsu
      · simp only [if_neg hneg] at hsu ⊢
        exact hsu
    | free freeme =>
      obtain ⟨u, hu, hsu⟩ := free_sound sound hlegal' hmoves
      rw [perform, Option.some.injEq] at hu hstep
      rw [← hstep]
      rw [← hu] at hsu
      refine .something pos ?_
      obtain ⟨_, _, _, _, _, _, hne, _⟩ := (FirstSound.something pos sound).found hlegal hpast
      have hkeep : ([⟨0, held, 1⟩] : List Area).filter (fun a => a.offset ≠ freeme) =
          [⟨0, held, 1⟩] := List.filter_eq_self.mpr fun a ha => by
        rw [List.mem_singleton.mp ha]
        exact decide_eq_true hne.symm
      rw [List.filter_append, hkeep] at hsu
      exact hsu
    | extend newAlloc succeeds =>
      obtain ⟨he, hu, ha, hf, hh⟩ := extend_entries sound.room newAlloc succeeds
      rw [perform, Option.some.injEq] at hstep
      rw [← hstep]
      refine .something pos (sound_congr sound he hf hh ?_)
      rw [hu]
      exact sound.room.trans ha

end BiscuitOS.PercpuFirst
