import BiscuitOS.BootmemSearch
import BiscuitOS.TransitionRun

/-!
# Histories of the boot allocator

One node under `reserve_bootmem`, `alloc_bootmem_core` and `free_bootmem`. An
allocation may start in the page in which the last one ended, so that the
bitmap says less than the byte ranges: the invariant keeps the rest of that
page out of every live range.
-/

namespace BiscuitOS.BootmemHistory

open MachineWord WordBitmap LoopRun BootmemModel BootmemReserve BootmemSearch TransitionRun

/-- The calls of the boot allocator; a search that outlasts its fuel does not return. -/
inductive BootOp where
  /-- `reserve_bootmem`. -/
  | reserve (addr size flags : ℕ)
  /-- `alloc_bootmem_core`. -/
  | alloc (size align goal limit fuel : ℕ)
  /-- `free_bootmem`. -/
  | free (addr size : ℕ)

/-- The node, and what it has been asked for. -/
structure BootState where
  /-- The node. -/
  node : BootmemData
  /-- The allocations that were not freed, as physical addresses with their sizes. -/
  live : List (ℕ × ℕ)
  /-- The pages that `reserve_bootmem` reserved. -/
  reserved : Set ℕ
  /-- The pages that were reserved at the beginning and were not freed. -/
  first : Set ℕ

/-- `virt_to_phys`. -/
def virtToPhys (x : ℕ) : ℕ := wrap 64 (wrapSub 64 x pageOffset + physOffset)

/-- The pages that a byte range touches. -/
def touched (addr size : ℕ) : Set ℕ := {p | addr / 4096 ≤ p ∧ p * 4096 < addr + size}

/-- The pages that lie wholly inside a byte range. -/
def whole (addr size : ℕ) : Set ℕ := {p | addr ≤ p * 4096 ∧ p * 4096 + 4096 ≤ addr + size}

/-- One call. Only a reservation that returns zero has reserved its pages. -/
def step (s : BootState) : BootOp → Option BootState
  | .reserve addr size flags =>
    let r := reserveBootmem [s.node] addr size flags
    some { s with
      node := r.2.headD s.node
      reserved := if r.1 = some 0 then s.reserved ∪ touched addr size else s.reserved }
  | .alloc size align goal limit fuel =>
    (allocBootmemCore s.node size align goal limit fuel).map fun r =>
      match r.1 with
      | none => { s with node := r.2 }
      | some region => { s with node := r.2, live := (virtToPhys region, size) :: s.live }
  | .free addr size =>
    some { s with
      node := (freeBootmem [s.node] addr size).headD s.node
      live := s.live.erase (addr, size)
      first := s.first \ whole addr size }

/-- The byte range of an allocation lies wholly inside the node. -/
def InNode (b : BootmemData) (addr size : ℕ) : Prop :=
  b.nodeMinPfn * 4096 ≤ addr ∧ addr + size ≤ b.nodeLowPfn * 4096

/-- Two byte ranges are disjoint. -/
def ApartBytes (r q : ℕ × ℕ) : Prop := r.1 + r.2 ≤ q.1 ∨ q.1 + q.2 ≤ r.1

/-- What is asked for: a reservation that is not exclusive spares the pages marked for an
allocation; sizes are positive and do not wrap, alignments are powers of two; what is freed is a
live allocation, or was reserved at the beginning and is not reserved by `reserve_bootmem`. -/
def Allowed (s : BootState) : BootOp → Prop
  | .reserve addr size flags =>
    addr + size + 4095 < 2 ^ 64 ∧
      (flags &&& bootmemExclusive = 0 → ∀ p ∈ touched addr size, Owns s.node p →
        reservedPage s.node p = true → p ∈ s.reserved ∪ s.first)
  | .alloc size align _ _ _ => 0 < size ∧ size + 4095 < 2 ^ 64 ∧ ∃ k < 64, align = 2 ^ k
  | .free addr size =>
    (addr, size) ∈ s.live ∨
      (InNode s.node addr size ∧ whole addr size ⊆ s.first \ s.reserved)

/-- The pages and bytes handed out, as the bitmap and the end of the last allocation have them. -/
structure Inv (s : BootState) : Prop where
  /-- Live allocations are not empty and lie inside the node. -/
  inside : ∀ r ∈ s.live, 0 < r.2 ∧ InNode s.node r.1 r.2
  /-- They are disjoint. -/
  apart : s.live.Pairwise ApartBytes
  /-- Their pages are marked, and reserved for nothing else. -/
  marked : ∀ r ∈ s.live, ∀ p ∈ touched r.1 r.2,
    reservedPage s.node p = true ∧ p ∉ s.reserved ∪ s.first
  /-- Reserved pages are marked. -/
  reserved : ∀ p ∈ s.reserved ∪ s.first, Owns s.node p ∧ reservedPage s.node p = true
  /-- The rest of the page in which the last allocation ended is marked, and reserved for
  nothing. -/
  tail : s.node.lastEndOff % 4096 ≠ 0 →
    Owns s.node (s.node.nodeMinPfn + s.node.lastEndOff / 4096) ∧
    reservedPage s.node (s.node.nodeMinPfn + s.node.lastEndOff / 4096) = true ∧
    s.node.nodeMinPfn + s.node.lastEndOff / 4096 ∉ s.reserved ∪ s.first ∧
    ∀ r ∈ s.live, r.1 + r.2 ≤ s.node.nodeMinPfn * 4096 + s.node.lastEndOff ∨
      (s.node.nodeMinPfn + s.node.lastEndOff / 4096) * 4096 + 4096 ≤ r.1

variable {b b' : BootmemData} {s s' : BootState} {addr size align goal limit fuel flags sidx p : ℕ}

/-- A reservation that is not exclusive sets all its indices. -/
theorem reserveLoop_shared (map : Bitmap) (idx left : ℕ) :
    reserveLoop false map idx left = (none, setBits map idx left) := by
  induction left generalizing map idx with
  | zero => rfl
  | succ left ih =>
    rw [reserveLoop, testAndSetBit_eq]
    dsimp only
    rw [if_neg (by simp), ih, setBits]

/-- `mark_bootmem_node` for a reservation that is not exclusive. -/
theorem markBootmemNode_shared (b : BootmemData) {pos max : ℕ}
    (hflags : flags &&& bootmemExclusive = 0) (hpos : b.nodeMinPfn ≤ pos) (hle : pos ≤ max)
    (hmax : max ≤ b.nodeLowPfn) :
    (markBootmemNode b pos max true flags).1 = 0 ∧
      Marked true pos max b (markBootmemNode b pos max true flags).2 := by
  have hflag : decide (flags &&& bootmemExclusive ≠ 0) = false := by
    rw [hflags]
    rfl
  rw [markBootmemNode_eq b true flags hpos hle hmax]
  simp only [if_true, reserve, hflag, reserveLoop_shared]
  refine ⟨trivial, rfl, rfl, rfl, rfl, fun i => ?_⟩
  simp only [bit_setBits word_pos, index_run b hpos hmax i]
  split <;> simp [*]

/-- Any flags that ask for an exclusive reservation do the same. -/
theorem markBootmemNode_exclusive (b : BootmemData) {pos max : ℕ}
    (hflags : flags &&& bootmemExclusive ≠ 0) :
    markBootmemNode b pos max true flags = markBootmemNode b pos max true bootmemExclusive := by
  have hflag : decide (flags &&& bootmemExclusive ≠ 0) =
      decide (bootmemExclusive &&& bootmemExclusive ≠ 0) := by
    rw [decide_eq_true hflags]
    rfl
  simp only [markBootmemNode, reserve, hflag, if_true]

/-- The marking behind an empty one. -/
theorem Marked.after_empty {v u : Bool} {start fin : ℕ} {a c : BootmemData}
    (h : Marked v start start a b) (h' : Marked u start fin b c) : Marked u start fin a c where
  minPfn := h'.minPfn.trans h.minPfn
  lowPfn := h'.lowPfn.trans h.lowPfn
  mapAddr := h'.mapAddr.trans h.mapAddr
  lastEndOff := h'.lastEndOff.trans h.lastEndOff
  bits i := by
    rw [h'.bits, h.bits, h.minPfn, h.lowPfn]
    by_cases hin : start ≤ a.nodeMinPfn + i ∧ a.nodeMinPfn + i < fin ∧
        a.nodeMinPfn + i < a.nodeLowPfn
    · rw [if_pos hin, if_pos hin]
    · rw [if_neg hin, if_neg hin, if_neg (by omega)]

/-- What a reservation in a single node does: it marks the range, as far as the node goes, or it is
refused and marks nothing. -/
structure ReservedRange (b : BootmemData) (start fin flags : ℕ) (r : Option ℤ) (b' : BootmemData) :
    Prop where
  node : (Marked true start fin b b' ∧ (flags &&& bootmemExclusive ≠ 0 → ¬Busy b start fin)) ∨
    (Marked false start start b b' ∧ r ≠ some 0)
  owned : r = some 0 → ∀ p, start ≤ p → p < fin → Owns b p

/-- `mark_bootmem` for a reservation in a single node. -/
theorem reserve_single (b : BootmemData) {start fin : ℕ} (flags : ℕ) (hle : start ≤ fin) :
    ∃ b', (markBootmem [b] start fin true flags).2 = [b'] ∧
      ReservedRange b start fin flags (markBootmem [b] start fin true flags).1 b' := by
  rw [markBootmem, markLoop]
  by_cases hout : start < b.nodeMinPfn ∨ start ≥ b.nodeLowPfn
  · rw [if_pos hout, markLoop]
    exact ⟨b, rfl, Or.inr ⟨Marked.refl (by omega), by simp⟩, by simp⟩
  rw [if_neg hout]
  dsimp only
  have hpos : b.nodeMinPfn ≤ start := by omega
  have hmax : start ≤ min b.nodeLowPfn fin := by omega
  have hbusy : Busy b start (min b.nodeLowPfn fin) ↔ Busy b start fin := busy_min
  by_cases href : flags &&& bootmemExclusive ≠ 0 ∧ Busy b start (min b.nodeLowPfn fin)
  · obtain ⟨hres, hmark⟩ := markBootmemNode_busy b hpos hmax (Nat.min_le_left _ _) href.2
    rw [← markBootmemNode_exclusive b href.1] at hres hmark
    generalize markBootmemNode b start (min b.nodeLowPfn fin) true flags = r at hres hmark ⊢
    have hne : r.1 ≠ 0 := by
      rw [hres]
      decide
    rw [if_pos ⟨rfl, hne⟩, hres]
    have hown : ¬(start < r.2.nodeMinPfn ∨ start ≥ r.2.nodeLowPfn) := by
      rw [hmark.minPfn, hmark.lowPfn]
      exact hout
    have hback : min r.2.nodeLowPfn start = start := Nat.min_eq_right (by omega)
    obtain ⟨-, hundo⟩ := markBootmemNode_free r.2 0 (by omega) le_rfl (show start ≤ r.2.nodeLowPfn by
      omega)
    refine ⟨(markBootmemNode r.2 start start false 0).2, ?_, Or.inr ⟨?_, by simp [ebusy]⟩,
      by simp [ebusy]⟩
    · rw [List.nil_append, unmark, markLoop, if_neg hown, hback]
      dsimp only
      rw [if_neg (by simp), if_pos rfl, List.nil_append]
    · exact Marked.after_empty hmark hundo
  · have hnode : (markBootmemNode b start (min b.nodeLowPfn fin) true flags).1 = 0 ∧
        Marked true start (min b.nodeLowPfn fin) b
          (markBootmemNode b start (min b.nodeLowPfn fin) true flags).2 := by
      by_cases hflags : flags &&& bootmemExclusive = 0
      · exact markBootmemNode_shared b hflags hpos hmax (Nat.min_le_left _ _)
      · exact markBootmemNode_clear b flags hpos hmax (Nat.min_le_left _ _)
          fun h => href ⟨hflags, h⟩
    obtain ⟨hres, hmark⟩ := hnode
    generalize markBootmemNode b start (min b.nodeLowPfn fin) true flags = r at hres hmark ⊢
    have hwide : Marked true start fin b r.2 := hmark.congr fun p hp => by
      have hlow := hp.2
      omega
    have hfree : flags &&& bootmemExclusive ≠ 0 → ¬Busy b start fin :=
      fun hflags h => href ⟨hflags, hbusy.mpr h⟩
    rw [if_neg (by simp [hres])]
    by_cases hend : min b.nodeLowPfn fin = fin
    · rw [if_pos hend]
      exact ⟨r.2, rfl, Or.inl ⟨hwide, hfree⟩, fun _ p hp hlt => ⟨by omega, by omega⟩⟩
    · rw [if_neg hend, markLoop]
      exact ⟨r.2, rfl, Or.inl ⟨hwide, hfree⟩, by simp⟩

/-- `mark_bootmem` for a range that is freed in a single node. -/
theorem free_single (b : BootmemData) {start fin : ℕ} (hmin : b.nodeMinPfn ≤ start)
    (hfin : b.nodeMinPfn ≤ fin) (hlow : fin ≤ b.nodeLowPfn) :
    ∃ b', (markBootmem [b] start fin false 0).2 = [b'] ∧ Marked false start fin b b' := by
  rw [markBootmem, markLoop]
  by_cases hout : start < b.nodeMinPfn ∨ start ≥ b.nodeLowPfn
  · rw [if_pos hout, markLoop]
    exact ⟨b, rfl, Marked.refl fun p hp h => by omega⟩
  rw [if_neg hout]
  dsimp only
  have hend : min b.nodeLowPfn fin = fin := Nat.min_eq_right hlow
  rw [hend, if_neg (by simp), if_pos rfl, List.nil_append]
  refine ⟨_, rfl, ?_⟩
  by_cases hle : start ≤ fin
  · exact (markBootmemNode_free b 0 hmin hle hlow).2
  · have hs := index_eq b hmin (show start ≤ b.nodeLowPfn by omega)
    have he := index_eq b hfin hlow
    have hnone : fin - b.nodeMinPfn - (start - b.nodeMinPfn) = 0 := by omega
    simp only [markBootmemNode, hs, he, Bool.false_eq_true, if_false, BootmemModel.free, hnone,
      freeLoop]
    refine ⟨rfl, rfl, rfl, rfl, fun i => (if_neg ?_).symm⟩
    omega

/-- What a search that finds a place knows about it. -/
structure Place (b : BootmemData) (size align limit sidx : ℕ) : Prop where
  /-- The pages lie below the end of the search. -/
  fits : b.nodeMinPfn + sidx + pfnUp size ≤ allocMax b limit
  /-- They are clear. -/
  clear : ∀ i, sidx ≤ i → i < sidx + pfnUp size → bit b.nodeBootmemMap i = false
  /-- The first one is aligned. -/
  aligned : allocStep align ∣ b.nodeMinPfn + sidx

/-- An aligned index below the end of the search is the index of an aligned page frame. -/
theorem candidate_dvd {midx j o : ℕ} (hj : j ≤ 51) (hmidx : midx ≤ 2 ^ 20)
    (hlt : candidate b midx (2 ^ j) o < midx) :
    2 ^ j ∣ b.nodeMinPfn + candidate b midx (2 ^ j) o := by
  have hmin := b.minPfn_le
  have hmax : maxPfn = 1048576 := by decide
  have hdvd := alignUp_dvd (w := 64) (k := j) (by omega)
    (b.nodeMinPfn + toUnsigned 64 (findNextZeroBit b.nodeBootmemMap midx o))
  have hword := alignDown_lt 64 (b.nodeMinPfn + toUnsigned 64
    (findNextZeroBit b.nodeBootmemMap midx o) + wrapSub 64 (2 ^ j) 1) (2 ^ j)
  rw [← alignUp] at hword
  rw [candidate, alignIdx] at hlt ⊢
  generalize alignUp 64 (b.nodeMinPfn + toUnsigned 64 (findNextZeroBit b.nodeBootmemMap midx o))
    (2 ^ j) = a at hdvd hword hlt ⊢
  have hback : b.nodeMinPfn + wrapSub 64 a b.nodeMinPfn = a := by
    rw [wrapSub] at hlt ⊢
    omega
  rwa [hback]

/-- The index with which the search is left starts a run of clear bits. -/
theorem findBlock_found {midx astep pages : ℕ} {t : Search} (hmidx : midx ≤ 2 ^ 20)
    (hbound : pages ≤ 2 ^ 52) (h : findBlock b midx astep pages t = .inr (some sidx)) :
    sidx = candidate b midx astep t.sidx ∧ sidx < midx ∧ sidx + pages ≤ midx ∧
      ∀ i, sidx ≤ i → i < sidx + pages → bit b.nodeBootmemMap i = false := by
  obtain ⟨c, hc⟩ : ∃ c, candidate b midx astep t.sidx = c := ⟨_, rfl⟩
  simp only [findBlock, hc] at h
  rw [hc]
  by_cases hout : c ≥ midx ∨ wrap 64 (c + pages) > midx
  · rw [if_pos hout] at h
    by_cases hback : t.fallback ≠ 0
    · rw [if_pos hback] at h
      exact absurd h Sum.inl_ne_inr
    · rw [if_neg hback] at h
      exact absurd (Sum.inr.inj h).symm (Option.some_ne_none _)
  · rw [if_neg hout] at h
    have hnowrap : wrap 64 (c + pages) = c + pages := wrap_of_lt (by omega)
    rw [hnowrap, Nat.add_sub_cancel_left] at h
    rw [hnowrap] at hout
    rcases firstSet_spec b.nodeBootmemMap c pages with ⟨i, hfound, -⟩ | ⟨hfound, hclear⟩
    · rw [hfound] at h
      exact absurd h Sum.inl_ne_inr
    · rw [hfound] at h
      have hc : c = sidx := Option.some.inj (Sum.inr.inj h)
      subst hc
      exact ⟨rfl, by omega, by omega, hclear⟩

/-- An allocation that does not give NULL has found a place. -/
theorem allocBootmemCore_place {region : ℕ} (hsize : 0 < size) (hround : size + 4095 < 2 ^ 64)
    {k : ℕ} (hk : k < 64) (halign : align = 2 ^ k)
    (h : allocBootmemCore b size align goal limit fuel = some (some region, b')) :
    ∃ sidx, Place b size align limit sidx ∧ takeBlock b sidx size align = (region, b') := by
  obtain ⟨hpages, hbound⟩ := pfnUp_pos hsize hround
  rw [allocBootmemCore] at h
  by_cases hmap : b.mapAddr = 0
  · rw [if_pos hmap] at h
    cases h
  rw [if_neg hmap] at h
  by_cases hnone : allocMax b limit ≤ b.nodeMinPfn
  · rw [if_pos hnone] at h
    cases h
  rw [if_neg hnone, Option.map_eq_some_iff] at h
  obtain ⟨found, hrun, hfound⟩ := h
  cases found with
  | none => cases hfound
  | some sidx =>
    have hmax := allocMax_le b limit
    obtain ⟨j, hj, hstep⟩ := allocStep_two_pow hk
    rw [← halign] at hstep
    have hsub : wrapSub 64 (allocMax b limit) b.nodeMinPfn = allocMax b limit - b.nodeMinPfn :=
      wrapSub_of_le (by omega) (by omega)
    obtain ⟨s, hs⟩ := loop_left hrun
    rw [hsub] at hs
    have hmidx : allocMax b limit - b.nodeMinPfn ≤ 2 ^ 20 := by omega
    have htaken : (some (takeBlock b sidx size align).1, (takeBlock b sidx size align).2) =
        (some region, b') := hfound
    rw [Prod.mk.injEq, Option.some_inj] at htaken
    obtain ⟨hcand, hlt, hfit, hclear⟩ := findBlock_found hmidx hbound hs
    refine ⟨sidx, ⟨by omega, hclear, ?_⟩, Prod.ext htaken.1 htaken.2⟩
    rw [hcand, hstep] at hlt ⊢
    exact candidate_dvd hj hmidx hlt

/-- The address that is returned is the one of the physical address. -/
theorem virtToPhys_region {a : ℕ} (ha : a < 2 ^ 64) :
    virtToPhys (wrap 64 (wrapSub 64 a physOffset + pageOffset)) = a := by
  have hphys : physOffset = 0x50000000 := rfl
  have hpage : pageOffset = 0xC0000000 := rfl
  rw [virtToPhys, hphys, hpage]
  simp only [wrap, wrapSub]
  omega

/-- A page frame below 2^20 has a physical address. -/
theorem pfnPhys_eq {n : ℕ} (h : n < 2 ^ 20) : pfnPhys n = n * 4096 := by
  rw [pfnPhys, wrap_of_lt (by omega)]

/-- The first page of a place is aligned as the request asks, in bytes. -/
theorem dvd_place {k n : ℕ} (h : allocStep (2 ^ k) ∣ n) : 2 ^ k ∣ n * 4096 := by
  rcases Nat.lt_or_ge k 12 with hk | hk
  · have hpage : 2 ^ k ∣ 2 ^ 12 := Nat.pow_dvd_pow 2 hk.le
    exact hpage.trans (Nat.dvd_mul_left _ _)
  · have hsplit : 2 ^ k = 2 ^ (k - 12) * 4096 := by
      rw [show 4096 = 2 ^ 12 by decide, ← pow_add, Nat.sub_add_cancel hk]
    have hstep : allocStep (2 ^ k) = 2 ^ (k - 12) := by
      rw [allocStep, hsplit, Nat.mul_div_cancel _ (by decide)]
      exact Nat.max_eq_left (Nat.one_le_two_pow)
    rw [hstep] at h
    rw [hsplit]
    exact Nat.mul_dvd_mul_right h 4096

/-- An address in the page before an aligned one is rounded up to at most that one. -/
theorem alignOff_le {k off : ℕ} (hk : k < 64) (hdvd : 2 ^ k ∣ (b.nodeMinPfn + sidx) * 4096)
    (hbound : b.nodeMinPfn + sidx < 2 ^ 20) (hoff : off ≤ sidx * 4096) :
    off ≤ alignOff b off (2 ^ k) ∧ alignOff b off (2 ^ k) ≤ sidx * 4096 ∧
      2 ^ k ∣ b.nodeMinPfn * 4096 + alignOff b off (2 ^ k) := by
  have hphys := pfnPhys_eq (n := b.nodeMinPfn) (by omega)
  have hpow : 2 ^ k ≤ 2 ^ 63 := Nat.pow_le_pow_right (by decide) (by omega)
  obtain ⟨hle, hlt, hup⟩ := alignUp_spec (w := 64) (x := b.nodeMinPfn * 4096 + off) hk (by omega)
  rw [alignOff, hphys]
  generalize alignUp 64 (b.nodeMinPfn * 4096 + off) (2 ^ k) = a at hle hlt hup ⊢
  have hmost : a ≤ (b.nodeMinPfn + sidx) * 4096 := by
    by_contra hgt
    have hdiff := Nat.le_of_dvd (by omega) (Nat.dvd_sub hup hdvd)
    omega
  have hbase : b.nodeMinPfn * 4096 ≤ a := (Nat.le_add_right _ _).trans hle
  have hsub : wrapSub 64 a (b.nodeMinPfn * 4096) = a - b.nodeMinPfn * 4096 :=
    wrapSub_of_le (by omega) hbase
  have hback : b.nodeMinPfn * 4096 + (a - b.nodeMinPfn * 4096) = a := by omega
  rw [hsub, hback]
  exact ⟨by omega, by omega, hup⟩

/-- The node after an allocation at a place, and the physical address `a` of the allocation. -/
structure Taken (b : BootmemData) (size align sidx a : ℕ) (b' : BootmemData) : Prop where
  minPfn : b'.nodeMinPfn = b.nodeMinPfn
  lowPfn : b'.nodeLowPfn = b.nodeLowPfn
  aligned : align ∣ a
  /-- It starts with the place, or in the rest of the page before. -/
  start : a = (b.nodeMinPfn + sidx) * 4096 ∨
    (b.lastEndOff % 4096 ≠ 0 ∧ b.lastEndOff / 4096 + 1 = sidx ∧
      b.nodeMinPfn * 4096 + b.lastEndOff ≤ a ∧ a < (b.nodeMinPfn + sidx) * 4096)
  /-- Its end is kept. -/
  lastEndOff : b.nodeMinPfn * 4096 + b'.lastEndOff = a + size
  /-- Its pages from the place on are marked. -/
  bits : ∀ i, bit b'.nodeBootmemMap i =
    if sidx ≤ i ∧ (b.nodeMinPfn + i) * 4096 < a + size then true else bit b.nodeBootmemMap i

/-- `start_off`. -/
def startOff (b : BootmemData) (sidx align : ℕ) : ℕ :=
  if b.lastEndOff % 4096 ≠ 0 ∧ pfnDown b.lastEndOff + 1 = sidx then alignOff b b.lastEndOff align
  else pfnPhys sidx

/-- The offset at which the block is placed. -/
theorem startOff_spec {k : ℕ} (hk : k < 64) (hdvd : 2 ^ k ∣ (b.nodeMinPfn + sidx) * 4096)
    (hbound : b.nodeMinPfn + sidx < 2 ^ 20) :
    ∃ off, startOff b sidx (2 ^ k) = off ∧
      off ≤ sidx * 4096 ∧ sidx * 4096 < off + 4096 ∧ 2 ^ k ∣ b.nodeMinPfn * 4096 + off ∧
      (off = sidx * 4096 ∨ (b.lastEndOff % 4096 ≠ 0 ∧ b.lastEndOff / 4096 + 1 = sidx ∧
        b.lastEndOff ≤ off ∧ off < sidx * 4096)) := by
  by_cases hmerge : b.lastEndOff % 4096 ≠ 0 ∧ pfnDown b.lastEndOff + 1 = sidx
  · have hsidx : b.lastEndOff / 4096 + 1 = sidx := hmerge.2
    have hnear : b.lastEndOff ≤ sidx * 4096 := by omega
    have hrest := hmerge.1
    obtain ⟨hle, hmost, hup⟩ := alignOff_le hk hdvd hbound hnear
    rw [startOff, if_pos hmerge]
    generalize alignOff b b.lastEndOff (2 ^ k) = off at hle hmost hup
    exact ⟨off, rfl, hmost, by omega, hup, by omega⟩
  · rw [startOff, if_neg hmerge]
    refine ⟨sidx * 4096, pfnPhys_eq (by omega), le_rfl, by omega, ?_, Or.inl rfl⟩
    rwa [← Nat.add_mul]

/-- What `alloc_bootmem_core` does with a place. -/
theorem takeBlock_taken {k : ℕ} (hsize : 0 < size) (hround : size + 4095 < 2 ^ 64) (hk : k < 64)
    (h : Place b size (2 ^ k) limit sidx) :
    Taken b size (2 ^ k) sidx (virtToPhys (takeBlock b sidx size (2 ^ k)).1)
      (takeBlock b sidx size (2 ^ k)).2 := by
  have hmax := allocMax_le b limit
  have hfits := h.fits
  have hpages : pfnUp size = (size + 4095) / 4096 := by rw [pfnUp, wrap_of_lt hround]
  have hpos := (pfnUp_pos hsize hround).1
  obtain ⟨off, hoff, hle, hgt, hup, hstart⟩ := @startOff_spec b sidx _ hk (dvd_place h.aligned)
    (by omega)
  have hphys := pfnPhys_eq (n := b.nodeMinPfn) (by omega)
  have hend : wrap 64 (off + size) = off + size := wrap_of_lt (by omega)
  have hlast : pfnUp (off + size) = (off + size + 4095) / 4096 := by
    rw [pfnUp, wrap_of_lt (by omega)]
  have hfirst : pfnDown off + (if pfnDown off < sidx then 1 else 0) = sidx := by
    rw [pfnDown]
    split <;> omega
  have hclear : ∀ i, sidx ≤ i → i < sidx + ((off + size + 4095) / 4096 - sidx) →
      bit b.nodeBootmemMap i = false := fun i hi hlt => h.clear i hi (by omega)
  have hword : b.nodeMinPfn * 4096 + off < 2 ^ 64 := by
    by_contra hlarge
    omega
  have hvirt := virtToPhys_region hword
  have hflag : decide (bootmemExclusive &&& bootmemExclusive ≠ 0) = true := by decide
  rw [startOff] at hoff
  simp only [takeBlock, hoff, hphys, hend, hlast, hfirst, hvirt, reserve, hflag,
    reserveLoop_clear true hclear]
  refine ⟨rfl, rfl, hup, ?_, (Nat.add_assoc _ _ _).symm, fun i => ?_⟩
  · rcases hstart with hs | ⟨h1, h2, h3, h4⟩
    · exact Or.inl (by omega)
    · refine Or.inr ⟨h1, h2, Nat.add_le_add_left h3 _, ?_⟩
      rw [Nat.add_mul]
      exact Nat.add_lt_add_left h4 _
  · rw [bit_setBits word_pos]
    by_cases hin : sidx ≤ i ∧ (b.nodeMinPfn + i) * 4096 < b.nodeMinPfn * 4096 + off + size
    · rw [if_pos hin, decide_eq_true (by omega), Bool.true_or]
    · rw [if_neg hin, decide_eq_false (by omega), Bool.false_or]

/-- What an allocation at physical address `a` promises, in the state before it. -/
structure Granted (s : BootState) (size align limit a : ℕ) (b' : BootmemData) : Prop where
  /-- It is aligned. -/
  aligned : align ∣ a
  /-- It lies in the node. -/
  inNode : InNode s.node a size
  /-- It ends below a limit of at least a page. -/
  limit : 4096 ≤ limit → a + size ≤ limit
  /-- No live allocation shares a byte with it. -/
  live : ∀ r ∈ s.live, ApartBytes (a, size) r
  /-- None of its pages is reserved. -/
  reserved : ∀ p ∈ touched a size, p ∉ s.reserved ∪ s.first
  /-- All of its pages are marked afterwards. -/
  marked : ∀ p ∈ touched a size, reservedPage b' p = true

/-- Two ranges that share no page in which one of them has a byte of the other are disjoint. -/
theorem apart_of_pages {r q : ℕ × ℕ} (hr : 0 < r.2) (hq : 0 < q.2)
    (h : ∀ x, r.1 ≤ x → x < r.1 + r.2 → q.1 ≤ x → x < q.1 + q.2 → False) : ApartBytes r q := by
  rw [ApartBytes]
  by_contra hnot
  exact h (max r.1 q.1) (by omega) (by omega) (by omega) (by omega)

/-- The page of a byte of a range is touched. -/
theorem mem_touched {a x : ℕ} (h : a ≤ x) (hlt : x < a + size) : x / 4096 ∈ touched a size :=
  ⟨Nat.div_le_div_right h, (Nat.div_mul_le_self x 4096).trans_lt hlt⟩

/-- A page that an allocation touches was clear, or is the one in which the last allocation
ended. -/
theorem touched_cases {a : ℕ} (hround : size + 4095 < 2 ^ 64) (hplace : Place b size align limit sidx)
    (ht : Taken b size align sidx a b') (hp : p ∈ touched a size) :
    (b.nodeMinPfn + sidx ≤ p ∧ reservedPage b p = false ∧ reservedPage b' p = true) ∨
      (b.lastEndOff % 4096 ≠ 0 ∧ p = b.nodeMinPfn + b.lastEndOff / 4096 ∧
        b.nodeMinPfn * 4096 + b.lastEndOff ≤ a) := by
  obtain ⟨hlow, hhigh⟩ := hp
  have hpages : pfnUp size = (size + 4095) / 4096 := by rw [pfnUp, wrap_of_lt hround]
  by_cases hin : b.nodeMinPfn + sidx ≤ p
  · left
    have hidx : b.nodeMinPfn + (p - b.nodeMinPfn) = p := by omega
    have hle : a ≤ (b.nodeMinPfn + sidx) * 4096 := by
      rcases ht.start with he | ⟨-, -, -, hlt⟩
      · exact he.le
      · exact hlt.le
    refine ⟨hin, hplace.clear _ (by omega) (by omega), ?_⟩
    rw [reservedPage, ht.minPfn, ht.bits, hidx, if_pos ⟨by omega, hhigh⟩]
  · right
    rcases ht.start with he | ⟨hrest, hnext, hge, hlt⟩
    · omega
    · refine ⟨hrest, ?_, hge⟩
      omega

/-- Marked pages stay marked. -/
theorem Taken.keeps {a : ℕ} (ht : Taken b size align sidx a b') (h : reservedPage b p = true) :
    reservedPage b' p = true := by
  rw [reservedPage, ht.minPfn, ht.bits]
  split
  · rfl
  · exact h

/-- An allocation is granted what it promises. -/
theorem Inv.granted {a k : ℕ} (h : Inv s) (hsize : 0 < size) (hround : size + 4095 < 2 ^ 64)
    (hplace : Place s.node size (2 ^ k) limit sidx)
    (ht : Taken s.node size (2 ^ k) sidx a b') : Granted s size (2 ^ k) limit a b' := by
  have hfits := hplace.fits
  have hpages : pfnUp size = (size + 4095) / 4096 := by rw [pfnUp, wrap_of_lt hround]
  have hle : a ≤ (s.node.nodeMinPfn + sidx) * 4096 := by
    rcases ht.start with he | ⟨-, -, -, hlt⟩
    · exact he.le
    · exact hlt.le
  have hge : s.node.nodeMinPfn * 4096 ≤ a := by
    rcases ht.start with he | ⟨-, -, hfrom, -⟩
    · rw [he, Nat.add_mul]
      exact Nat.le_add_right _ _
    · exact (Nat.le_add_right _ _).trans hfrom
  have hend : a + size ≤ allocMax s.node limit * 4096 := by
    by_contra hgt
    omega
  have hmax : allocMax s.node limit ≤ s.node.nodeLowPfn ∧
      (4096 ≤ limit → allocMax s.node limit ≤ limit / 4096) := by
    rw [allocMax]
    split <;> omega
  refine ⟨ht.aligned, ⟨hge, hend.trans (Nat.mul_le_mul_right _ hmax.1)⟩, fun hlimit => ?_,
    fun r hr => ?_, fun p hp => ?_, fun p hp => ?_⟩
  · have hbelow := Nat.mul_le_mul_right 4096 (hmax.2 hlimit)
    exact hend.trans (hbelow.trans (Nat.div_mul_le_self _ _))
  · refine apart_of_pages hsize (h.inside r hr).1 fun x h1 h2 h3 h4 => ?_
    have hmarked := (h.marked r hr _ (mem_touched h3 h4)).1
    rcases touched_cases hround hplace ht (mem_touched h1 h2) with ⟨-, hclear, -⟩ |
      ⟨hrest, hpage, hfrom⟩
    · rw [hclear] at hmarked
      cases hmarked
    · have htail := (h.tail hrest).2.2.2 r hr
      omega
  · rcases touched_cases hround hplace ht hp with ⟨-, hclear, -⟩ | ⟨hrest, hpage, -⟩
    · intro hmem
      rw [(h.reserved p hmem).2] at hclear
      cases hclear
    · rw [hpage]
      exact (h.tail hrest).2.2.1
  · rcases touched_cases hround hplace ht hp with ⟨-, -, hset⟩ | ⟨hrest, hpage, -⟩
    · exact hset
    · rw [hpage]
      exact ht.keeps (h.tail hrest).2.1

/-- An allocation keeps the invariant. -/
theorem Inv.alloc {a k : ℕ} (h : Inv s) (hsize : 0 < size) (hround : size + 4095 < 2 ^ 64)
    (hplace : Place s.node size (2 ^ k) limit sidx)
    (ht : Taken s.node size (2 ^ k) sidx a b') :
    Inv { s with node := b', live := (a, size) :: s.live } := by
  have hg := h.granted hsize hround hplace ht
  have hlast := ht.lastEndOff
  have hin : ∀ addr n, InNode b' addr n ↔ InNode s.node addr n := fun addr n => by
    rw [InNode, InNode, ht.minPfn, ht.lowPfn]
  have hown : ∀ p, Owns b' p ↔ Owns s.node p := fun p => by
    rw [Owns, Owns, ht.minPfn, ht.lowPfn]
  refine ⟨?_, ?_, ?_, fun p hp => ?_, fun hrest => ?_⟩
  · rintro r (- | ⟨-, hr⟩)
    · exact ⟨hsize, (hin _ _).mpr hg.inNode⟩
    · exact ⟨(h.inside r hr).1, (hin _ _).mpr (h.inside r hr).2⟩
  · exact List.pairwise_cons.mpr ⟨hg.live, h.apart⟩
  · rintro r (- | ⟨-, hr⟩) p hp
    · exact ⟨hg.marked p hp, hg.reserved p hp⟩
    · exact ⟨ht.keeps (h.marked r hr p hp).1, (h.marked r hr p hp).2⟩
  · exact ⟨(hown p).mpr (h.reserved p hp).1, ht.keeps (h.reserved p hp).2⟩
  · dsimp only at hrest ⊢
    rw [ht.minPfn]
    have hbase := hg.inNode.1
    have hlow := hg.inNode.2
    have hpage : s.node.nodeMinPfn + b'.lastEndOff / 4096 = (a + size) / 4096 := by omega
    have hend : (a + size) % 4096 ≠ 0 := by omega
    have hmem : (a + size) / 4096 ∈ touched a size := by
      have hbyte := mem_touched (show a ≤ a + size - 1 by omega)
        (show a + size - 1 < a + size by omega)
      rwa [show (a + size - 1) / 4096 = (a + size) / 4096 by omega] at hbyte
    rw [hpage]
    refine ⟨(hown _).mpr ⟨by omega, by omega⟩, hg.marked _ hmem, hg.reserved _ hmem, ?_⟩
    rintro r (- | ⟨-, hr⟩)
    · exact Or.inl hlast.ge
    · by_contra hnot
      push Not at hnot
      have hpos := (h.inside r hr).1
      have hbyte := @mem_touched r.2 _ _ (show r.1 ≤ max r.1 (a + size) by omega)
        (show max r.1 (a + size) < r.1 + r.2 by omega)
      rw [show max r.1 (a + size) / 4096 = (a + size) / 4096 by omega] at hbyte
      have hmarked := (h.marked r hr _ hbyte).1
      rcases touched_cases hround hplace ht hmem with ⟨-, hclear, -⟩ | ⟨hold, hsame, hfrom⟩
      · rw [hclear] at hmarked
        cases hmarked
      · have htail := (h.tail hold).2.2.2 r hr
        omega

/-- Marking pages that no allocation has keeps the invariant, and so does reserving some of the
pages marked. -/
theorem Inv.mark {start fin : ℕ} {more : Set ℕ} (h : Inv s) (hm : Marked true start fin s.node b')
    (hmore : ∀ p ∈ more, start ≤ p ∧ p < fin ∧ Owns s.node p)
    (hfree : ∀ p, start ≤ p → p < fin → Owns s.node p → reservedPage s.node p = true →
      p ∈ s.reserved ∪ s.first) :
    Inv { s with node := b', reserved := s.reserved ∪ more } := by
  have hkeep : ∀ p, reservedPage s.node p = true → reservedPage b' p = true := fun p hp => by
    rw [reservedPage, hm.minPfn, hm.bits]
    split
    · rfl
    · exact hp
  have hset : ∀ p ∈ more, reservedPage b' p = true := fun p hp => by
    obtain ⟨hlow, hhigh, hown⟩ := hmore p hp
    have hmin := hown.1
    have hidx : s.node.nodeMinPfn + (p - s.node.nodeMinPfn) = p := by omega
    rw [reservedPage, hm.minPfn, hm.bits, hidx, if_pos ⟨hlow, hhigh, hown.2⟩]
  have hold : ∀ p, reservedPage s.node p = true → p ∉ s.reserved ∪ s.first →
      p ∉ s.reserved ∪ more ∪ s.first := by
    rintro p hp hnot ((hres | hin) | hfirst)
    · exact hnot (Or.inl hres)
    · obtain ⟨hlow, hhigh, hown⟩ := hmore p hin
      exact hnot (hfree p hlow hhigh hown hp)
    · exact hnot (Or.inr hfirst)
  refine ⟨fun r hr => ?_, h.apart, fun r hr p hp => ?_, ?_, fun hrest => ?_⟩
  · rw [InNode, hm.minPfn, hm.lowPfn]
    exact h.inside r hr
  · exact ⟨hkeep p (h.marked r hr p hp).1, hold p (h.marked r hr p hp).1 (h.marked r hr p hp).2⟩
  · rintro p ((hres | hin) | hfirst)
    · exact ⟨(hm.owns p).mpr (h.reserved p (Or.inl hres)).1, hkeep p (h.reserved p (Or.inl hres)).2⟩
    · exact ⟨(hm.owns p).mpr (hmore p hin).2.2, hset p hin⟩
    · exact ⟨(hm.owns p).mpr (h.reserved p (Or.inr hfirst)).1,
        hkeep p (h.reserved p (Or.inr hfirst)).2⟩
  · dsimp only at hrest ⊢
    rw [hm.lastEndOff] at hrest ⊢
    rw [hm.minPfn]
    obtain ⟨hown, hmarked, hnot, hlive⟩ := h.tail hrest
    exact ⟨(hm.owns _).mpr hown, hkeep _ hmarked, hold _ hmarked hnot, hlive⟩

/-- A reservation keeps the invariant. -/
theorem Inv.reserve {r : Option ℤ} (h : Inv s)
    (hshared : flags &&& bootmemExclusive = 0 → ∀ p ∈ touched addr size, Owns s.node p →
      reservedPage s.node p = true → p ∈ s.reserved ∪ s.first)
    (hr : ReservedRange s.node (addr / 4096) ((addr + size + 4095) / 4096) flags r b') :
    Inv { s with
      node := b'
      reserved := if r = some 0 then s.reserved ∪ touched addr size else s.reserved } := by
  have htouched : ∀ p, p ∈ touched addr size ↔
      addr / 4096 ≤ p ∧ p < (addr + size + 4095) / 4096 := fun p => by
    simp only [touched, Set.mem_ofPred_eq]
    omega
  have hmore : ∀ p ∈ (if r = some 0 then touched addr size else ∅ : Set ℕ),
      addr / 4096 ≤ p ∧ p < (addr + size + 4095) / 4096 ∧ Owns s.node p := fun p hp => by
    by_cases hok : r = some 0
    · rw [if_pos hok] at hp
      obtain ⟨hlow, hhigh⟩ := (htouched p).mp hp
      exact ⟨hlow, hhigh, hr.owned hok p hlow hhigh⟩
    · rw [if_neg hok] at hp
      exact absurd hp (Set.notMem_empty p)
  have hsame : (if r = some 0 then s.reserved ∪ touched addr size else s.reserved) =
      s.reserved ∪ (if r = some 0 then touched addr size else ∅) := by
    split
    · rfl
    · rw [Set.union_empty]
  rw [hsame]
  rcases hr.node with ⟨hmark, hbusy⟩ | ⟨hmark, hrefused⟩
  · refine h.mark hmark hmore fun p hlow hhigh hown hp => ?_
    by_cases hflags : flags &&& bootmemExclusive = 0
    · exact hshared hflags p ((htouched p).mpr ⟨hlow, hhigh⟩) hown hp
    · exact absurd ⟨p, hlow, hhigh, hown, hp⟩ (hbusy hflags)
  · rw [if_neg hrefused]
    have hempty : Marked true (addr / 4096) (addr / 4096) s.node b' :=
      ⟨hmark.minPfn, hmark.lowPfn, hmark.mapAddr, hmark.lastEndOff, fun i => by
        rw [hmark.bits, if_neg (by omega), if_neg (by omega)]⟩
    exact h.mark hempty (fun p hp => absurd hp (Set.notMem_empty p)) fun p hlow hhigh => by omega

/-- Freeing the pages wholly inside a range keeps the invariant when nothing else has them. -/
theorem Inv.unmark {live : List (ℕ × ℕ)} (h : Inv s)
    (hm : Marked false ((addr + 4095) / 4096) ((addr + size) / 4096) s.node b')
    (hsub : live.Sublist s.live) (hlive : ∀ r ∈ live, ∀ p ∈ touched r.1 r.2, p ∉ whole addr size)
    (hreserved : ∀ p ∈ s.reserved, p ∉ whole addr size)
    (htail : s.node.lastEndOff % 4096 ≠ 0 →
      s.node.nodeMinPfn + s.node.lastEndOff / 4096 ∉ whole addr size) :
    Inv { s with node := b', live := live, first := s.first \ whole addr size } := by
  have hkeep : ∀ p, Owns s.node p → reservedPage s.node p = true → p ∉ whole addr size →
      reservedPage b' p = true := fun p hown hp hnot => by
    have hmin := hown.1
    have hidx : s.node.nodeMinPfn + (p - s.node.nodeMinPfn) = p := by omega
    rw [reservedPage, hm.minPfn, hm.bits, hidx, if_neg]
    · exact hp
    · rintro ⟨hlow, hhigh, -⟩
      exact hnot ⟨by omega, by omega⟩
  have hless : ∀ p, p ∉ s.reserved ∪ s.first → p ∉ s.reserved ∪ (s.first \ whole addr size) :=
    fun p hnot hp => hnot (hp.imp id And.left)
  refine ⟨fun r hr => ?_, h.apart.sublist hsub, fun r hr p hp => ?_, ?_, fun hrest => ?_⟩
  · rw [InNode, hm.minPfn, hm.lowPfn]
    exact h.inside r (hsub.subset hr)
  · have hold := h.marked r (hsub.subset hr) p hp
    have hown : Owns s.node p := by
      have hnode := (h.inside r (hsub.subset hr)).2
      have hfrom := hnode.1
      have hto := hnode.2
      obtain ⟨hlow, hhigh⟩ := hp
      exact ⟨by omega, by omega⟩
    exact ⟨hkeep p hown hold.1 (hlive r hr p hp), hless p hold.2⟩
  · rintro p (hres | hfirst)
    · have hold := h.reserved p (Or.inl hres)
      exact ⟨(hm.owns p).mpr hold.1, hkeep p hold.1 hold.2 (hreserved p hres)⟩
    · have hold := h.reserved p (Or.inr hfirst.1)
      exact ⟨(hm.owns p).mpr hold.1, hkeep p hold.1 hold.2 hfirst.2⟩
  · dsimp only at hrest ⊢
    rw [hm.lastEndOff] at hrest ⊢
    rw [hm.minPfn]
    obtain ⟨hown, hmarked, hnot, hall⟩ := h.tail hrest
    exact ⟨(hm.owns _).mpr hown, hkeep _ hown hmarked (htail hrest), hless _ hnot,
      fun r hr => hall r (hsub.subset hr)⟩

/-- `free_bootmem` of a byte range in the node. -/
theorem freeBootmem_single (hin : InNode b addr size) :
    ∃ b', (freeBootmem [b] addr size).headD b = b' ∧
      Marked false ((addr + 4095) / 4096) ((addr + size) / 4096) b b' := by
  have hlow := b.lowPfn_le
  have hmax : maxPfn = 1048576 := by decide
  have hfrom := hin.1
  have hto := hin.2
  have hup : pfnUp addr = (addr + 4095) / 4096 := by rw [pfnUp, wrap_of_lt (by omega)]
  have hdown : pfnDown (wrap 64 (addr + size)) = (addr + size) / 4096 := by
    rw [pfnDown, wrap_of_lt (by omega)]
  obtain ⟨b', hres, hm⟩ := @free_single b ((addr + 4095) / 4096)
    ((addr + size) / 4096) (by omega) (by omega) (by omega)
  refine ⟨b', ?_, hm⟩
  rw [freeBootmem, hup, hdown, hres]
  rfl

/-- Freeing what was handed out or reserved at the beginning keeps the invariant. -/
theorem Inv.free (h : Inv s) (ha : Allowed s (.free addr size))
    (hm : Marked false ((addr + 4095) / 4096) ((addr + size) / 4096) s.node b') :
    Inv { s with
      node := b', live := s.live.erase (addr, size), first := s.first \ whole addr size } := by
  have hbyte : ∀ r p, p ∈ touched r.1 r.2 → p ∈ whole addr size → 0 < r.2 →
      ¬ApartBytes (addr, size) r := fun r p hp hw hpos hapart => by
    obtain ⟨hlow, hhigh⟩ := hp
    obtain ⟨hfrom, hto⟩ := hw
    rcases hapart with hbelow | habove
    · dsimp only at hbelow
      omega
    · dsimp only at habove
      omega
  by_cases hlive : (addr, size) ∈ s.live
  · have hperm := List.perm_cons_erase hlive
    have hsymm : ∀ {r q : ℕ × ℕ}, ApartBytes r q → ApartBytes q r := fun hrq => hrq.symm
    have hapart := List.pairwise_cons.mp ((hperm.pairwise_iff hsymm).mp h.apart)
    have hown : ∀ p ∈ whole addr size, p ∉ s.reserved ∪ s.first := fun p hp =>
      (h.marked _ hlive p ⟨by have := hp.1; omega, by have := hp.2; omega⟩).2
    refine h.unmark hm List.erase_sublist (fun r hr p hp hw => ?_)
      (fun p hp hw => hown p hw (Or.inl hp)) fun hrest hw => ?_
    · exact hbyte r p hp hw (h.inside r (List.mem_of_mem_erase hr)).1 (hapart.1 r hr)
    · have htail := (h.tail hrest).2.2.2 _ hlive
      obtain ⟨hfrom, hto⟩ := hw
      dsimp only at htail
      omega
  · obtain ⟨-, hsub⟩ := ha.resolve_left hlive
    refine h.unmark hm List.erase_sublist (fun r hr p hp hw => ?_)
      (fun p hp hw => (hsub hw).2 hp) fun hrest hw => ?_
    · exact (h.marked r (List.mem_of_mem_erase hr) p hp).2 (Or.inr (hsub hw).1)
    · exact (h.tail hrest).2.2.1 (Or.inr (hsub hw).1)

/-- An allocation that returns has taken a place. -/
theorem alloc_taken {region : ℕ} (ha : Allowed s (.alloc size align goal limit fuel))
    (hres : allocBootmemCore s.node size align goal limit fuel = some (some region, b')) :
    ∃ k sidx, align = 2 ^ k ∧ Place s.node size (2 ^ k) limit sidx ∧
      Taken s.node size (2 ^ k) sidx (virtToPhys region) b' := by
  obtain ⟨hsize, hround, k, hk, rfl⟩ := ha
  obtain ⟨sidx, hplace, htake⟩ := allocBootmemCore_place hsize hround hk rfl hres
  have htaken := takeBlock_taken hsize hround hk hplace
  rw [htake] at htaken
  exact ⟨k, sidx, rfl, hplace, htaken⟩

/-- An allocation that gives NULL leaves the node alone. -/
theorem alloc_null (hres : allocBootmemCore b size align goal limit fuel = some (none, b')) :
    b' = b := by
  rw [allocBootmemCore] at hres
  by_cases hmap : b.mapAddr = 0
  · rw [if_pos hmap, Option.some_inj, Prod.mk.injEq] at hres
    exact hres.2.symm
  rw [if_neg hmap] at hres
  by_cases hnone : allocMax b limit ≤ b.nodeMinPfn
  · rw [if_pos hnone, Option.some_inj, Prod.mk.injEq] at hres
    exact hres.2.symm
  rw [if_neg hnone, Option.map_eq_some_iff] at hres
  obtain ⟨found, -, hfound⟩ := hres
  cases found with
  | none => exact (Prod.mk.inj hfound).2.symm
  | some sidx => exact absurd (Prod.mk.inj hfound).1 (Option.some_ne_none _)

/-- Every call keeps the invariant. -/
theorem step_inv {op : BootOp} (h : Inv s) (ha : Allowed s op) (hs : step s op = some s') :
    Inv s' := by
  cases op with
  | reserve addr size flags =>
    obtain ⟨b', hres, hr⟩ := @reserve_single s.node (addr / 4096)
      ((addr + size + 4095) / 4096) flags (by omega)
    have hmark : reserveBootmem [s.node] addr size flags =
        markBootmem [s.node] (addr / 4096) ((addr + size + 4095) / 4096) true flags := by
      have hsize := ha.1
      rw [reserveBootmem, pfnDown, pfnUp, wrap_of_lt (show addr + size < 2 ^ 64 by omega),
        wrap_of_lt hsize]
    rw [step, hmark, Option.some_inj] at hs
    have hnode : (markBootmem [s.node] (addr / 4096) ((addr + size + 4095) / 4096) true
        flags).2.headD s.node = b' := by
      rw [hres]
      rfl
    rw [← hs, hnode]
    exact h.reserve ha.2 hr
  | alloc size align goal limit fuel =>
    rw [step, Option.map_eq_some_iff] at hs
    obtain ⟨⟨region, b'⟩, hres, rfl⟩ := hs
    cases region with
    | none =>
      have hsame := alloc_null hres
      subst hsame
      exact h
    | some region =>
      obtain ⟨k, sidx, rfl, hplace, htaken⟩ := alloc_taken ha hres
      exact h.alloc ha.1 ha.2.1 hplace htaken
  | free addr size =>
    have hin : InNode s.node addr size := by
      rcases ha with hlive | hfirst
      · exact (h.inside _ hlive).2
      · exact hfirst.1
    obtain ⟨b', hnode, hm⟩ := freeBootmem_single hin
    rw [step, hnode, Option.some_inj] at hs
    rw [← hs]
    exact h.free ha hm

/-- The state before the first call. -/
def initial (b : BootmemData) : BootState :=
  ⟨b, [], ∅, {p | Owns b p ∧ reservedPage b p = true}⟩

/-- A node that has not served a request starts with the invariant. -/
theorem initial_inv (hlast : b.lastEndOff = 0) : Inv (initial b) := by
  refine ⟨fun r hr => absurd hr List.not_mem_nil, List.Pairwise.nil,
    fun r hr => absurd hr List.not_mem_nil, fun p hp => ?_, fun hrest => ?_⟩
  · rcases hp with hp | hp
    · exact absurd hp (Set.notMem_empty p)
    · exact hp
  · rw [initial, hlast] at hrest
    exact absurd rfl hrest

/-- From any bitmap, after every sequence of reservations, allocations and frees, the live
allocations are disjoint, marked and apart from everything reserved, and the next allocation that
does not give NULL is aligned, inside the node and its limit, and disjoint from all of them. -/
theorem history_disjoint (b : BootmemData) (hlast : b.lastEndOff = 0) {ops : List BootOp}
    {s : BootState} (hops : Admissible step Allowed (initial b) ops)
    (he : exec step (initial b) ops = some s) :
    Inv s ∧ ∀ size align goal limit fuel region b',
      Allowed s (.alloc size align goal limit fuel) →
      allocBootmemCore s.node size align goal limit fuel = some (some region, b') →
      Granted s size align limit (virtToPhys region) b' := by
  have hinv := exec_preserves (fun _ _ _ h ha hs => step_inv h ha hs) (initial_inv hlast) hops he
  refine ⟨hinv, fun size align goal limit fuel region b' ha hres => ?_⟩
  obtain ⟨k, sidx, rfl, hplace, htaken⟩ := alloc_taken ha hres
  exact hinv.granted ha.1 ha.2.1 hplace htaken

/-- The end of the small node is one that `nodeFrom16` takes. -/
theorem clearNode_end : 48 < 256 := by decide

/-- The page frames from 16 to 47, all clear. -/
def clearNode : BootmemData := nodeFrom16 ⟨48, clearNode_end⟩ fun _ => 0#32

/-- Two allocations in one page; the first one is freed. -/
def sharedPage : List BootOp :=
  [.alloc 100 64 0 0 9, .alloc 50 8 0 0 9, .free 65536 100]

/-- The second allocation stays. -/
theorem history_disjoint_sharedPage : ∃ s, exec step (initial clearNode) sharedPage = some s ∧
    s.live = [(65640, 50)] ∧ Inv s ∧ ∀ size align goal limit fuel region b',
      Allowed s (.alloc size align goal limit fuel) →
      allocBootmemCore s.node size align goal limit fuel = some (some region, b') →
      Granted s size align limit (virtToPhys region) b' := by
  have hlive : (exec step (initial clearNode) sharedPage).map BootState.live =
      some [(65640, 50)] := by decide +kernel
  have hboth : (exec step (initial clearNode) (sharedPage.take 2)).map BootState.live =
      some [(65640, 50), (65536, 100)] := by decide +kernel
  obtain ⟨s, hs, hl⟩ := Option.map_eq_some_iff.mp hlive
  refine ⟨s, hs, hl, history_disjoint clearNode rfl ?_ hs⟩
  refine ⟨⟨by decide, by decide, 6, by decide, by decide⟩, fun t ht =>
    ⟨⟨by decide, by decide, 3, by decide, by decide⟩, fun u hu => ⟨Or.inl ?_, fun _ _ => trivial⟩⟩⟩
  have hrun : exec step (initial clearNode) (sharedPage.take 2) = some u := by
    rw [sharedPage, List.take, exec, ht, Option.bind_some, List.take, exec, hu]
    rfl
  rw [hrun, Option.map_some, Option.some_inj] at hboth
  rw [hboth]
  exact List.mem_cons_of_mem _ List.mem_cons_self

end BiscuitOS.BootmemHistory
