import BiscuitOS.BuddyInvariant

/-!
# Merging and splitting blocks

A block off the lists is merged with its free buddies when it is freed, and
split when it is handed out. Both loops keep the invariant of the lists and
the pages that are free or in the block.
-/

namespace BiscuitOS.BuddyBlock

open PageModel BuddyModel DyadicBlock BuddyInvariant

/-- A block of the zone that is on no list. -/
structure Detached (id : ℕ) (debt : ℕ → ℤ) (z : Zone) (p o : ℕ) : Prop where
  lists : FreeLists id debt z
  order_le : o ≤ pageblockOrder
  aligned : 2 ^ o ∣ p
  inside : span p o ⊆ zonePages id z
  apart : Disjoint (freeSet z) (span p o)

variable {z z' : Zone} {p o t id n : ℕ} {debt : ℕ → ℤ}

/-- The orders of free blocks index the free areas. -/
theorem lt_maxOrder (h : o ≤ pageblockOrder) : o < maxOrder := Nat.lt_succ_of_le h

/-- A block taken off its list and out of the count. -/
theorem Detached.take (h : FreeLists id debt z) (hm : (p, o) ∈ blocks z) :
    Detached id (fun k => debt k - if k = o then 1 else 0) (rmvPageOrder (listDel z p) p) p o where
  lists := h.take hm
  order_le := h.wf.order_le p o hm
  aligned := h.wf.aligned p o hm
  inside := by
    rw [(moves_take z p).zonePages_eq]
    exact (span_subset_covered hm).trans h.inside
  apart := by
    rw [h.freeSet_take hm]
    exact Set.disjoint_sdiff_left

/-- Counters do not matter to a detached block. -/
theorem Detached.addNrFree (h : Detached id debt z p o) (k : ℕ) (v : ℤ) :
    Detached id (fun j => debt j - if j = k then v else 0) (addNrFree z k v) p o where
  lists := h.lists.addNrFree k v
  order_le := h.order_le
  aligned := h.aligned
  inside := h.inside
  apart := h.apart

/-- The missing counts matter only pointwise. -/
theorem Detached.debt_eq {debt' : ℕ → ℤ} (h : Detached id debt z p o)
    (he : ∀ k, debt k = debt' k) : Detached id debt' z p o := by
  have hfun : debt = debt' := funext he
  rwa [hfun] at h

/-- A block taken off its list, with its counter. -/
theorem Detached.takeCounted (h : FreeLists id debt z) (hm : (p, o) ∈ blocks z) :
    Detached id debt (BuddyModel.addNrFree (rmvPageOrder (listDel z p) p) o (-1)) p o :=
  ((Detached.take h hm).addNrFree o (-1)).debt_eq fun k => by split <;> ring

/-- What taking a block off its list, with its counter, leaves alone. -/
theorem moves_takeCounted (z : Zone) (p : ℕ) (ho : o < maxOrder) :
    Moves z (addNrFree (rmvPageOrder (listDel z p) p) o (-1)) {p} (-2 ^ o) :=
  ((moves_take z p).trans (moves_addNrFree _ ho (-1))).mono (Set.union_empty _).subset (by ring)

/-- The free pages after taking a block off its list. -/
theorem freeSet_takeCounted (h : FreeLists id debt z) (hm : (p, o) ∈ blocks z) :
    freeSet (addNrFree (rmvPageOrder (listDel z p) p) o (-1)) = freeSet z \ span p o :=
  h.freeSet_take hm

/-- The combined block after its free buddy is taken off its list. -/
theorem Detached.merge (h : Detached id debt z p o) (ho : o < pageblockOrder)
    (hm : (buddy p o, o) ∈ blocks z) :
    Detached id debt
      (BuddyModel.addNrFree (rmvPageOrder (listDel z (buddy p o)) (buddy p o)) o (-1))
      (parent p o) (o + 1) where
  lists := (Detached.takeCounted h.lists hm).lists
  order_le := ho
  aligned := parent_dvd h.aligned
  inside := by
    rw [(moves_takeCounted z (buddy p o) (lt_maxOrder ho.le)).zonePages_eq, span_parent h.aligned]
    exact Set.union_subset h.inside ((span_subset_covered hm).trans h.lists.inside)
  apart := by
    rw [freeSet_takeCounted h.lists hm, span_parent h.aligned, Set.disjoint_union_right]
    exact ⟨h.apart.mono_left Set.sdiff_subset, Set.disjoint_sdiff_left⟩

/-- Merging keeps the pages that are free or in the block. -/
theorem Detached.merge_pages (h : Detached id debt z p o) (hm : (buddy p o, o) ∈ blocks z) :
    freeSet z \ span (buddy p o) o ∪ span (parent p o) (o + 1) = freeSet z ∪ span p o := by
  have hsub : span (buddy p o) o ⊆ freeSet z := span_subset_covered hm
  rw [span_parent h.aligned, ← Set.union_assoc, Set.union_right_comm, Set.sdiff_union_of_subset hsub]

/-- Where the merge loop stops: the block is off the lists, has no free buddy, and no page
is lost. -/
structure MergedTo (id : ℕ) (debt : ℕ → ℤ) (z : Zone) (p o : ℕ) (m : Merged) : Prop where
  detached : Detached id debt m.zone m.page m.order
  nobuddy : m.order < pageblockOrder → (buddy m.page m.order, m.order) ∉ blocks m.zone
  pages : freeSet m.zone ∪ span m.page m.order = freeSet z ∪ span p o
  moves : Moves z m.zone (freeSet z ∪ span p o) (2 ^ o - 2 ^ m.order)

/-- Every round of the merge loop takes one buddy off its list. -/
theorem mergeLoop_spec (n : ℕ) : ∀ {z : Zone} {p o : ℕ}, Detached id debt z p o →
    o + n = pageblockOrder → MergedTo id debt z p o (mergeLoop z p (p % 2 ^ maxOrder) o n) := by
  induction n with
  | zero =>
    intro z p o h hn
    have hstop : ¬ o < pageblockOrder := by omega
    exact ⟨h, fun hlt => absurd hlt hstop, rfl,
      (Moves.refl z).mono (Set.empty_subset _) (sub_self _).symm⟩
  | succ n ih =>
    intro z p o h hn
    have ho : o < pageblockOrder := by omega
    obtain ⟨hbuddy, hparent, hidx⟩ := index_eq h.aligned (lt_maxOrder ho.le)
    have hzone : p ∈ zonePages id z := h.inside (mem_span_self p o)
    have hiff := h.lists.pageIsBuddy_iff (q := buddy p o) (o := o) hzone
    have hq : p + findBuddyIndex (p % 2 ^ maxOrder) o - p % 2 ^ maxOrder = buddy p o := hbuddy
    have hc : findBuddyIndex (p % 2 ^ maxOrder) o &&& p % 2 ^ maxOrder =
        parent p o % 2 ^ maxOrder := hidx
    have hp : p + parent p o % 2 ^ maxOrder - p % 2 ^ maxOrder = parent p o := by
      rw [← hidx]
      exact hparent
    simp only [mergeLoop, hq, hc, hp]
    by_cases hm : (buddy p o, o) ∈ blocks z
    · have hround : rmvPageOrder (addNrFree (listDel z (buddy p o)) o (-1)) (buddy p o) =
          addNrFree (rmvPageOrder (listDel z (buddy p o)) (buddy p o)) o (-1) := rfl
      rw [if_pos (hiff.mpr hm), hround]
      have hstep := ih (h.merge ho hm) (by omega)
      have hpages : freeSet (addNrFree (rmvPageOrder (listDel z (buddy p o)) (buddy p o)) o (-1)) ∪
          span (parent p o) (o + 1) = freeSet z ∪ span p o := by
        rw [freeSet_takeCounted h.lists hm]
        exact h.merge_pages hm
      have hmoves := (moves_takeCounted z (buddy p o) (lt_maxOrder ho.le)).trans hstep.moves
      rw [hpages] at hmoves
      refine ⟨hstep.detached, hstep.nobuddy, hstep.pages.trans hpages, hmoves.mono ?_ ?_⟩
      · refine Set.union_subset (Set.singleton_subset_iff.mpr (Set.mem_union_left _ ?_)) subset_rfl
        exact span_subset_covered hm (mem_span_self _ o)
      · rw [pow_succ]
        ring
    · rw [if_neg (fun hb => hm (hiff.mp hb))]
      exact ⟨h, fun _ => hm, rfl, (Moves.refl z).mono (Set.empty_subset _) (sub_self _).symm⟩

/-- The free pages after a block is put on a list. -/
theorem freeSet_putCounted {l : List ℕ} (hl : l.Perm (p :: z.freeList o t)) :
    freeSet (addNrFree (setPageOrder (setList z o t l) p o) o 1) = freeSet z ∪ span p o :=
  freeSet_put hl

/-- Putting a detached block without a free buddy on a list. -/
theorem Detached.putCounted (h : Detached id debt z p o) (ht : t < migrateTypes)
    (hnb : o < pageblockOrder → (buddy p o, o) ∉ blocks z) {l : List ℕ}
    (hl : l.Perm (p :: z.freeList o t)) :
    FreeLists id debt (BuddyModel.addNrFree (setPageOrder (setList z o t l) p o) o 1) :=
  ((h.lists.put h.order_le ht h.aligned h.inside h.apart hnb hl).addNrFree o 1).debt_eq
    fun k => by split <;> ring

/-- What putting a block on a list leaves alone. -/
theorem moves_putCounted (z : Zone) (p t : ℕ) (l : List ℕ) (ho : o < maxOrder) :
    Moves z (addNrFree (setPageOrder (setList z o t l) p o) o 1) {p} (2 ^ o) :=
  ((moves_put z p o t l).trans (moves_addNrFree _ ho 1)).mono (Set.union_empty _).subset (by ring)

/-- What an operation that frees the block does. -/
structure Freed (id : ℕ) (debt : ℕ → ℤ) (z : Zone) (p o : ℕ) (z' : Zone) : Prop where
  lists : FreeLists id debt z'
  pages : freeSet z' = freeSet z ∪ span p o
  moves : Moves z z' (freeSet z ∪ span p o) (2 ^ o)

/-- `__free_one_page` frees the block, wherever it is queued. -/
theorem freeOnePage_spec (h : Detached id debt z p o) (ht : t < migrateTypes) :
    Freed id debt z p o (freeOnePage z p o t) := by
  have hrounds : o + (maxOrder - 1 - o) = pageblockOrder := Nat.add_sub_cancel' h.order_le
  have hm := mergeLoop_spec (maxOrder - 1 - o) h hrounds
  simp only [freeOnePage]
  generalize mergeLoop z p (p % 2 ^ maxOrder) o (maxOrder - 1 - o) = m at hm
  have hself : m.page ∈ freeSet z ∪ span p o := by
    rw [← hm.pages]
    exact Set.mem_union_right _ (mem_span_self _ _)
  have hput : ∀ l, l.Perm (m.page :: m.zone.freeList m.order t) → Freed id debt z p o
      (addNrFree (setPageOrder (setList m.zone m.order t l) m.page m.order) m.order 1) :=
    fun l hl => by
      have hlast := moves_putCounted m.zone m.page t l (lt_maxOrder hm.detached.order_le)
      refine ⟨hm.detached.putCounted ht hm.nobuddy hl, (freeSet_putCounted hl).trans hm.pages, ?_⟩
      refine (hm.moves.trans hlast).mono ?_ (by ring)
      exact Set.union_subset subset_rfl (Set.singleton_subset_iff.mpr hself)
  split
  · exact hput _ (List.perm_append_singleton _ _)
  · exact hput _ (List.Perm.refl _)

/-- What splitting a detached block down to a smaller order does. -/
structure SplitTo (id : ℕ) (debt : ℕ → ℤ) (z : Zone) (p high low : ℕ) (z' : Zone) : Prop where
  detached : Detached id debt z' p low
  pages : freeSet z' ∪ span p low = freeSet z ∪ span p high
  moves : Moves z z' (span p high) (2 ^ high - 2 ^ low)

/-- The lower half stays detached when the upper half is put on a list. -/
theorem Detached.split (h : Detached id debt z p (o + 1)) (ht : t < migrateTypes) :
    SplitTo id debt z p (o + 1) o
      (setPageOrder (BuddyModel.addNrFree (listAdd z (p + 2 ^ o) o t) o 1) (p + 2 ^ o) o) := by
  have ho : o < maxOrder := (Nat.lt_succ_self o).trans (lt_maxOrder h.order_le)
  have hal : 2 ^ o ∣ p := Nat.dvd_trans (Nat.pow_dvd_pow 2 (Nat.le_succ o)) h.aligned
  have hhalves := span_succ p o
  have hlow : span p o ⊆ span p (o + 1) := by
    rw [hhalves]
    exact Set.subset_union_left
  have hup : span (p + 2 ^ o) o ⊆ span p (o + 1) := by
    rw [hhalves]
    exact Set.subset_union_right
  have hhalf : Detached id debt z (p + 2 ^ o) o :=
    ⟨h.lists, (Nat.le_succ o).trans h.order_le, Nat.dvd_add hal (Nat.dvd_refl _),
      hup.trans h.inside, h.apart.mono_right hup⟩
  have hnb : (buddy (p + 2 ^ o) o, o) ∉ blocks z := by
    rw [buddy_half h.aligned]
    exact fun hm => Set.disjoint_left.mp h.apart (span_subset_covered hm (mem_span_self p o))
      (mem_span_self p (o + 1))
  have hperm := List.Perm.refl ((p + 2 ^ o) :: z.freeList o t)
  have hmoves : Moves z (setPageOrder (BuddyModel.addNrFree (listAdd z (p + 2 ^ o) o t) o 1)
      (p + 2 ^ o) o) {p + 2 ^ o} (2 ^ o) := moves_putCounted z (p + 2 ^ o) t _ ho
  have hset : freeSet (setPageOrder (BuddyModel.addNrFree (listAdd z (p + 2 ^ o) o t) o 1)
      (p + 2 ^ o) o) = freeSet z ∪ span (p + 2 ^ o) o := freeSet_putCounted hperm
  refine ⟨⟨hhalf.putCounted ht (fun _ => hnb) hperm, hhalf.order_le, hal, ?_, ?_⟩, ?_, ?_⟩
  · rw [hmoves.zonePages_eq]
    exact hlow.trans h.inside
  · rw [hset, Set.disjoint_union_left]
    exact ⟨h.apart.mono_right hlow, (span_halves p o).symm⟩
  · rw [hset, hhalves, Set.union_assoc, Set.union_comm (span (p + 2 ^ o) o)]
  · refine hmoves.mono (Set.singleton_subset_iff.mpr (hup (mem_span_self _ o))) ?_
    rw [pow_succ]
    ring

/-- The split loop puts the upper halves on the lists, order by order. -/
theorem expand_spec (n : ℕ) : ∀ {z : Zone}, Detached id debt z p (o + n) → t < migrateTypes →
    SplitTo id debt z p (o + n) o (expand z p o t n) := by
  induction n with
  | zero =>
    intro z h _
    exact ⟨h, rfl, (Moves.refl z).mono (Set.empty_subset _) (sub_self _).symm⟩
  | succ n ih =>
    intro z h ht
    have hone := Detached.split (o := o + n) h ht
    have hrest := ih hone.detached ht
    refine ⟨hrest.detached, hrest.pages.trans hone.pages, ?_⟩
    refine (hone.moves.trans hrest.moves).mono ?_ (by ring)
    refine Set.union_subset subset_rfl ?_
    rw [Nat.add_succ, span_succ p (o + n)]
    exact Set.subset_union_left

end BiscuitOS.BuddyBlock
