import BiscuitOS.BuddyRemoval
import BiscuitOS.TransitionRun

/-!
# Histories of frees and allocations

The pages handed out are tracked beside the zone. From empty free lists,
every history of `__free_one_page` and `__rmqueue` keeps the lists, the
marks, the orders and the counters consistent, and loses no page.
-/

namespace BiscuitOS.BuddyHistory

open PageModel BuddyModel DyadicBlock BuddyInvariant BuddyBlock BuddyRemoval TransitionRun

/-- The operations on the free lists of a zone. -/
inductive BuddyOp where
  /-- `__free_one_page`. -/
  | free (page order migratetype : ℕ)
  /-- `__rmqueue`. -/
  | alloc (order migratetype : ℕ)

/-- The zone and the pages that are handed out. -/
structure State where
  /-- The zone. -/
  zone : Zone
  /-- The pages of the blocks handed out and not freed yet. -/
  handedOut : Set ℕ

/-- One operation; an allocation that fails changes nothing. -/
def step (s : State) : BuddyOp → Option State
  | .free page order migratetype =>
    some ⟨freeOnePage s.zone page order migratetype, s.handedOut \ span page order⟩
  | .alloc order migratetype =>
    match rmqueue s.zone order migratetype with
    | some r => some ⟨r.2, s.handedOut ∪ span r.1 order⟩
    | none => some s

/-- A freed block is aligned and handed out; orders and migrate types are within bounds. -/
def Allowed (s : State) : BuddyOp → Prop
  | .free page order migratetype =>
    order < maxOrder ∧ migratetype < migrateTypes ∧ 2 ^ order ∣ page ∧
      span page order ⊆ s.handedOut
  | .alloc order migratetype => order < maxOrder ∧ migratetype < migrateTypes

/-- A zone before anything is freed: no block on a list, and no page marked. -/
structure Untouched (id : ℕ) (z : Zone) : Prop where
  freeList_eq : ∀ o t, z.freeList o t = []
  nrFree_eq : ∀ o, z.nrFree o = 0
  unmarked : ∀ p, p ∈ zoneSpan z ∨ pageZoneId (z.pages p) = id → pageBuddy (z.pages p) = false

/-- The free lists agree with the descriptors, the counters and the pages handed out. -/
structure Consistent (id : ℕ) (managed : Set ℕ) (s : State) : Prop where
  /-- Blocks start at a multiple of their size and lie inside the zone. -/
  placed : ∀ p o t, p ∈ s.zone.freeList o t → 2 ^ o ∣ p ∧ span p o ⊆ zonePages id s.zone
  /-- No block is queued twice. -/
  nodup : ∀ o t, (s.zone.freeList o t).Nodup
  /-- Blocks of different lists, and different blocks of one list, are disjoint. -/
  disjoint : ∀ p o t q k u, p ∈ s.zone.freeList o t → q ∈ s.zone.freeList k u →
    (p, o, t) ≠ (q, k, u) → Disjoint (span p o) (span q k)
  /-- Free blocks are disjoint from the blocks handed out. -/
  apart : ∀ p o t, p ∈ s.zone.freeList o t → Disjoint (span p o) s.handedOut
  /-- A page is queued at an order exactly when it is marked with that order. -/
  marked : ∀ p ∈ zonePages id s.zone, ∀ o,
    (∃ t, p ∈ s.zone.freeList o t) ↔ pageBuddy (s.zone.pages p) = true ∧ (s.zone.pages p).word = o
  /-- The counters are the total lengths. -/
  counted : ∀ o < maxOrder, s.zone.nrFree o =
    ∑ t ∈ Finset.range migrateTypes, ((s.zone.freeList o t).length : ℤ)
  /-- No two free blocks below the largest order are buddies. -/
  nobuddy : ∀ p o t u, o < maxOrder - 1 → p ∈ s.zone.freeList o t →
    findBuddyIndex p o ∉ s.zone.freeList o u
  /-- No page is lost or gained. -/
  pages : freeSet s.zone ∪ s.handedOut = managed
  /-- What is handed out next was free. -/
  fresh : ∀ o t r, o < maxOrder → t < migrateTypes → rmqueue s.zone o t = some r →
    2 ^ o ∣ r.1 ∧ span r.1 o ⊆ freeSet s.zone ∧ Disjoint (span r.1 o) s.handedOut

/-- The invariant of the histories. -/
structure Inv (id : ℕ) (managed : Set ℕ) (s : State) : Prop where
  lists : FreeLists id 0 s.zone
  handed : s.handedOut ⊆ zonePages id s.zone
  apart : Disjoint (freeSet s.zone) s.handedOut
  pages : freeSet s.zone ∪ s.handedOut = managed

variable {id : ℕ} {managed : Set ℕ} {s s' : State} {op : BuddyOp} {z : Zone}

/-- Empty lists cover no page. -/
theorem Untouched.freeSet_eq (h : Untouched id z) : freeSet z = ∅ := by
  ext q
  simp only [freeSet, mem_covered, blocks, Set.mem_ofPred_eq, h.freeList_eq, List.not_mem_nil,
    exists_const, false_and, Set.mem_empty_iff_false]

/-- An untouched zone has consistent lists. -/
theorem Untouched.lists (h : Untouched id z) : FreeLists id 0 z := by
  have hnone : ∀ p o, (p, o) ∉ blocks z := fun p o hm => by
    obtain ⟨t, ht⟩ := mem_blocks.mp hm
    rw [h.freeList_eq] at ht
    exact List.not_mem_nil ht
  have hblocks : blocks z = ∅ := by
    ext b
    simp only [hnone b.1 b.2, Set.mem_empty_iff_false]
  have hmem : ∀ p o t, p ∉ z.freeList o t := fun p o t hp => hnone p o (mem_blocks.mpr ⟨t, hp⟩)
  refine ⟨?_, ?_, ⟨?_, ?_⟩, ?_, ?_, ?_, ?_⟩
  · rw [hblocks]
    exact wf_empty _
  · exact fun p o t hp => absurd hp (hmem p o t)
  · intro k
    rw [table, h.freeList_eq]
    exact List.nodup_nil
  · exact fun p j _ hp => absurd hp (hmem p j.1 j.2)
  · exact fun p o hp => absurd hp (hnone p o)
  · intro p hp hb
    rw [h.unmarked p hp] at hb
    cases hb
  · rw [h.freeSet_eq]
    exact Set.empty_subset _
  · intro o
    simp only [h.nrFree_eq, listTotal, h.freeList_eq, List.length_nil, Nat.cast_zero,
      Finset.sum_const_zero, Pi.zero_apply, add_zero]

/-- The block that is freed is on no list. -/
theorem Inv.detached (h : Inv id managed s) {page order t : ℕ}
    (ha : Allowed s (.free page order t)) : Detached id 0 s.zone page order where
  lists := h.lists
  order_le := Nat.le_of_lt_succ ha.1
  aligned := ha.2.2.1
  inside := ha.2.2.2.trans h.handed
  apart := h.apart.mono_right ha.2.2.2

/-- Freeing a block keeps the invariant. -/
theorem Inv.free (h : Inv id managed s) {page order t : ℕ} (ha : Allowed s (.free page order t)) :
    Inv id managed ⟨freeOnePage s.zone page order t, s.handedOut \ span page order⟩ := by
  have hf := freeOnePage_spec (h.detached ha) ha.2.1
  refine ⟨hf.lists, ?_, ?_, ?_⟩
  · dsimp only
    rw [hf.moves.zonePages_eq]
    exact Set.sdiff_subset.trans h.handed
  · dsimp only
    rw [hf.pages, Set.disjoint_union_left]
    exact ⟨h.apart.mono_right Set.sdiff_subset, Set.disjoint_sdiff_right⟩
  · dsimp only
    rw [hf.pages, Set.union_assoc, Set.union_sdiff_cancel ha.2.2.2, h.pages]

/-- Handing out a block keeps the invariant. -/
theorem Inv.alloc (h : Inv id managed s) {order p : ℕ} {z' : Zone}
    (hr : HandedOut id 0 s.zone p order z') : Inv id managed ⟨z', s.handedOut ∪ span p order⟩ := by
  have hsub : freeSet z' ⊆ freeSet s.zone := by
    rw [← hr.pages]
    exact Set.subset_union_left
  refine ⟨hr.detached.lists, ?_, ?_, ?_⟩
  · dsimp only
    refine Set.union_subset ?_ hr.detached.inside
    rw [hr.moves.zonePages_eq]
    exact h.handed
  · dsimp only
    rw [Set.disjoint_union_right]
    exact ⟨h.apart.mono_left hsub, hr.detached.apart⟩
  · dsimp only
    rw [Set.union_left_comm, hr.pages, Set.union_comm, h.pages]

/-- Every allowed operation returns and keeps the invariant. -/
theorem step_inv (h : Inv id managed s) (ha : Allowed s op) :
    ∃ s', step s op = some s' ∧ Inv id managed s' := by
  cases op with
  | free page order t => exact ⟨_, rfl, h.free ha⟩
  | alloc order t =>
    rw [step]
    split
    · next r hr => exact ⟨_, rfl, h.alloc (rmqueue_spec h.lists ha.2 hr)⟩
    · exact ⟨s, rfl, h⟩

/-- The invariant says that the lists are consistent. -/
theorem Inv.consistent (h : Inv id managed s) : Consistent id managed s where
  placed p o t hp := by
    have hm : (p, o) ∈ blocks s.zone := mem_blocks.mpr ⟨t, hp⟩
    exact ⟨h.lists.wf.aligned p o hm, (span_subset_covered hm).trans h.lists.inside⟩
  nodup o t := h.lists.separate.nodup (o, t)
  disjoint p o t q k u hp hq hne := by
    refine h.lists.wf.apart (p, o) (mem_blocks.mpr ⟨t, hp⟩) (q, k) (mem_blocks.mpr ⟨u, hq⟩) ?_
    intro he
    obtain ⟨rfl, rfl⟩ := Prod.mk.inj he
    exact hne (by rw [(h.lists.mem_unique hp hq).2])
  apart p o t hp := h.apart.mono_left (span_subset_covered (mem_blocks.mpr ⟨t, hp⟩))
  marked p hp o := by
    rw [← mem_blocks]
    exact h.lists.marked_iff hp
  counted o _ := by
    rw [← listTotal, ← h.lists.counted o, Pi.zero_apply, add_zero]
  nobuddy p o t u ho hp hq :=
    h.lists.wf.nobuddy p o (mem_blocks.mpr ⟨t, hp⟩) ho (mem_blocks.mpr ⟨u, hq⟩)
  pages := h.pages
  fresh o t r _ ht hr := by
    have hout := rmqueue_spec h.lists ht hr
    have hsub : span r.1 o ⊆ freeSet s.zone := by
      rw [← hout.pages]
      exact Set.subset_union_right
    exact ⟨hout.detached.aligned, hsub, h.apart.mono_left hsub⟩

/-- From empty free lists, every history of frees and allocations returns and keeps the free
lists consistent. -/
theorem history_consistent {out : Set ℕ} {ops : List BuddyOp} (hz : Untouched id z)
    (hout : out ⊆ zonePages id z) (hops : Admissible step Allowed ⟨z, out⟩ ops) :
    ∃ s, exec step ⟨z, out⟩ ops = some s ∧ Consistent id out s := by
  have hinit : Inv id out ⟨z, out⟩ := by
    refine ⟨hz.lists, hout, ?_, ?_⟩
    · rw [hz.freeSet_eq]
      exact Set.empty_disjoint _
    · rw [hz.freeSet_eq, Set.empty_union]
  obtain ⟨s, he, hi⟩ := exec_total (fun _ _ h ha => step_inv h ha) hinit hops
  exact ⟨s, he, hi.consistent⟩

/-- A zone of the four page frames from 8 on, with nothing freed yet. -/
def fourPages : Zone where
  startPfn := 8
  spannedPages := 4
  pages := fun _ => ⟨0, 0, -1, 0, 0, 0⟩
  freeList := fun _ _ => []
  nrFree := fun _ => 0
  blockType := fun _ => migrateMovable
  nrFreePages := 0
  pfnValid := fun q => 8 ≤ q ∧ q < 12
  mobilityDisabled := false

/-- Nothing is freed in the zone of four pages. -/
theorem fourPages_untouched : Untouched 0 fourPages :=
  ⟨fun _ _ => rfl, fun _ => rfl, fun _ _ => rfl⟩

/-- The four page frames are pages of the zone. -/
theorem fourPages_pages : Set.Ico 8 12 ⊆ zonePages 0 fourPages := fun q hq =>
  ⟨hq, decide_eq_true hq, by simp only [fourPages, pageZoneId]; decide⟩

/-- Two halves are freed, and a page of another type is allocated from the merged block. -/
theorem history_consistent_four :
    ∃ s, exec step ⟨fourPages, Set.Ico 8 12⟩
      [.free 8 1 migrateMovable, .free 10 1 migrateMovable, .alloc 0 migrateUnmovable] = some s ∧
      Consistent 0 (Set.Ico 8 12) s := by
  refine history_consistent fourPages_untouched fourPages_pages ?_
  refine ⟨⟨by decide, by decide, by decide, ?_⟩, fun t1 h1 => ⟨⟨by decide, by decide, by decide,
    ?_⟩, fun t2 h2 => ⟨⟨by decide, by decide⟩, fun _ _ => trivial⟩⟩⟩
  · exact Set.Ico_subset_Ico (by decide) (by decide)
  · simp only [step, Option.some.injEq] at h1
    rw [← h1]
    intro q hq
    simp only [span, Set.mem_Ico, Set.mem_sdiff] at hq ⊢
    omega

end BiscuitOS.BuddyHistory
