import BiscuitOS.BuddyModel
import BiscuitOS.DyadicBlock
import BiscuitOS.ListTable

/-!
# The invariant of the free lists

The blocks on the lists are disjoint aligned blocks without free buddies,
marked in their descriptors and counted per order. Each primitive operation
is characterized once: taking a block off its list, putting one on a list
and moving one between lists of its order.
-/

namespace BiscuitOS.BuddyInvariant

open PageModel BuddyModel DyadicBlock ListTable

/-- The blocks on the free lists, with their orders. -/
def blocks (z : Zone) : Set (ℕ × ℕ) := {b | ∃ t, b.1 ∈ z.freeList b.2 t}

/-- The free lists, by order and migrate type. -/
def table (z : Zone) : ℕ × ℕ → List ℕ := fun k => z.freeList k.1 k.2

/-- The pages on the free lists. -/
def freeSet (z : Zone) : Set ℕ := covered (blocks z)

/-- The page frames the zone spans. -/
def zoneSpan (z : Zone) : Set ℕ := Set.Ico z.startPfn (z.startPfn + z.spannedPages)

/-- The pages of the zone: in its span, present, and labelled with the zone number. -/
def zonePages (id : ℕ) (z : Zone) : Set ℕ :=
  {q | q ∈ zoneSpan z ∧ z.pfnValid q = true ∧ pageZoneId (z.pages q) = id}

/-- Total length of the lists of one order. -/
def listTotal (z : Zone) (o : ℕ) : ℤ :=
  ∑ t ∈ Finset.range migrateTypes, ((z.freeList o t).length : ℤ)

/-- Number of pages that the counters of the free lists account for. -/
def freePages (z : Zone) : ℤ := ∑ o ∈ Finset.range maxOrder, z.nrFree o * 2 ^ o

/-- The free lists are consistent, except that the counter of order `o` misses `debt o` blocks. -/
structure FreeLists (id : ℕ) (debt : ℕ → ℤ) (z : Zone) : Prop where
  wf : Wf pageblockOrder (blocks z)
  typed : ∀ p o t, p ∈ z.freeList o t → t < migrateTypes
  separate : Separate (table z)
  marked : ∀ p o, (p, o) ∈ blocks z → pageBuddy (z.pages p) = true ∧ (z.pages p).word = o
  listed : ∀ p, p ∈ zoneSpan z ∨ pageZoneId (z.pages p) = id → pageBuddy (z.pages p) = true →
    (p, (z.pages p).word) ∈ blocks z
  inside : freeSet z ⊆ zonePages id z
  counted : ∀ o, z.nrFree o + debt o = listTotal z o

/-- What an operation on the free lists leaves alone: everything but the mark and the order of
pages of `S`, the lists, the counters and the pageblock types. The counters gain `n` pages. -/
structure Moves (z z' : Zone) (S : Set ℕ) (n : ℤ) : Prop where
  startPfn_eq : z'.startPfn = z.startPfn
  spannedPages_eq : z'.spannedPages = z.spannedPages
  pfnValid_eq : z'.pfnValid = z.pfnValid
  nrFreePages_eq : z'.nrFreePages = z.nrFreePages
  marks : ∀ q, ∃ m w, z'.pages q = { z.pages q with mapcount := m, word := w }
  same : ∀ q, q ∉ S → z'.pages q = z.pages q
  types : (∀ i, z.blockType i < migrateTypes) → ∀ i, z'.blockType i < migrateTypes
  freePages_eq : freePages z' = freePages z + n

variable {z z' z'' : Zone} {S S' : Set ℕ} {n n' : ℤ} {p o t id : ℕ} {debt : ℕ → ℤ}

/-- Nothing moved. -/
theorem Moves.refl (z : Zone) : Moves z z ∅ 0 where
  startPfn_eq := rfl
  spannedPages_eq := rfl
  pfnValid_eq := rfl
  nrFreePages_eq := rfl
  marks _ := ⟨_, _, rfl⟩
  same _ _ := rfl
  types h := h
  freePages_eq := (add_zero _).symm

/-- One operation after another. -/
theorem Moves.trans (h : Moves z z' S n) (h' : Moves z' z'' S' n') :
    Moves z z'' (S ∪ S') (n + n') where
  startPfn_eq := h'.startPfn_eq.trans h.startPfn_eq
  spannedPages_eq := h'.spannedPages_eq.trans h.spannedPages_eq
  pfnValid_eq := h'.pfnValid_eq.trans h.pfnValid_eq
  nrFreePages_eq := h'.nrFreePages_eq.trans h.nrFreePages_eq
  marks q := by
    obtain ⟨m, w, hq⟩ := h.marks q
    obtain ⟨m', w', hq'⟩ := h'.marks q
    exact ⟨m', w', by rw [hq', hq]⟩
  same q hq := by
    simp only [Set.mem_union, not_or] at hq
    rw [h'.same q hq.2, h.same q hq.1]
  types ht := h'.types (h.types ht)
  freePages_eq := by rw [h'.freePages_eq, h.freePages_eq, add_assoc]

/-- The set of touched pages may be enlarged and the gain rewritten. -/
theorem Moves.mono (h : Moves z z' S n) (hs : S ⊆ S') (hn : n = n') : Moves z z' S' n' where
  startPfn_eq := h.startPfn_eq
  spannedPages_eq := h.spannedPages_eq
  pfnValid_eq := h.pfnValid_eq
  nrFreePages_eq := h.nrFreePages_eq
  marks := h.marks
  same q hq := h.same q (fun hc => hq (hs hc))
  types := h.types
  freePages_eq := by rw [h.freePages_eq, hn]

/-- The zone number of a page stays. -/
theorem Moves.pageZoneId_eq (h : Moves z z' S n) (q : ℕ) :
    pageZoneId (z'.pages q) = pageZoneId (z.pages q) := by
  obtain ⟨m, w, hq⟩ := h.marks q
  rw [hq, pageZoneId, pageZoneId]

/-- The span stays. -/
theorem Moves.zoneSpan_eq (h : Moves z z' S n) : zoneSpan z' = zoneSpan z := by
  rw [zoneSpan, zoneSpan, h.startPfn_eq, h.spannedPages_eq]

/-- The pages of the zone stay. -/
theorem Moves.zonePages_eq (h : Moves z z' S n) : zonePages id z' = zonePages id z := by
  ext q
  simp only [zonePages, Set.mem_ofPred_eq, h.zoneSpan_eq, h.pfnValid_eq, h.pageZoneId_eq]

/-- Membership in the lists of one order. -/
theorem mem_blocks : (p, o) ∈ blocks z ↔ ∃ t, p ∈ z.freeList o t := by
  simp only [blocks, Set.mem_ofPred_eq]

/-- Replacing one free list. -/
theorem table_setList (z : Zone) (o t : ℕ) (l : List ℕ) :
    table (setList z o t l) = Function.update (table z) (o, t) l := by
  funext k
  simp only [table, setList, Function.update_apply]
  by_cases hk : k.1 = o
  · simp only [hk, if_true, Function.update_apply, Prod.ext_iff, true_and]
  · simp only [hk, if_false, Prod.ext_iff, false_and]

/-- The total length of one order, over the table of lists. -/
theorem listTotal_eq (z : Zone) (o : ℕ) :
    listTotal z o = total ({o} ×ˢ Finset.range migrateTypes) (table z) := by
  rw [listTotal, total, Finset.sum_product, Finset.sum_singleton]
  rfl

/-- Changing one counter changes the number of accounted pages. -/
theorem moves_addNrFree (z : Zone) {o : ℕ} (ho : o < maxOrder) (v : ℤ) :
    Moves z (addNrFree z o v) ∅ (v * 2 ^ o) where
  startPfn_eq := rfl
  spannedPages_eq := rfl
  pfnValid_eq := rfl
  nrFreePages_eq := rfl
  marks _ := ⟨_, _, rfl⟩
  same _ _ := rfl
  types h := h
  freePages_eq := by
    have hsum : ∀ k ∈ Finset.range maxOrder, (addNrFree z o v).nrFree k * 2 ^ k =
        z.nrFree k * 2 ^ k + if k = o then v * 2 ^ o else 0 := fun k _ => by
      simp only [addNrFree, Function.update_apply]
      by_cases hk : k = o
      · subst hk
        rw [if_pos rfl, if_pos rfl, add_mul]
      · rw [if_neg hk, if_neg hk, add_zero]
    rw [freePages, Finset.sum_congr rfl hsum, Finset.sum_add_distrib, Finset.sum_ite_eq',
      if_pos (Finset.mem_range.mpr ho), freePages]

/-- Assigning the mark and the order of one page. -/
theorem moves_setPage (z : Zone) (p w : ℕ) (m : ℤ) :
    Moves z { z with pages := setPage z.pages p { z.pages p with word := w, mapcount := m } }
      {p} 0 where
  startPfn_eq := rfl
  spannedPages_eq := rfl
  pfnValid_eq := rfl
  nrFreePages_eq := rfl
  marks q := by
    by_cases hq : q = p
    · subst hq
      exact ⟨m, w, setPage_self _ _ _⟩
    · exact ⟨_, _, setPage_other _ hq _⟩
  same q hq := setPage_other _ hq _
  types h := h
  freePages_eq := (add_zero _).symm

/-- Changing lists only. -/
theorem moves_freeList (z : Zone) (f : ℕ → ℕ → List ℕ) :
    Moves z { z with freeList := f } ∅ 0 where
  startPfn_eq := rfl
  spannedPages_eq := rfl
  pfnValid_eq := rfl
  nrFreePages_eq := rfl
  marks _ := ⟨_, _, rfl⟩
  same _ _ := rfl
  types h := h
  freePages_eq := (add_zero _).symm

/-- Unlinking a page and clearing its mark. -/
theorem moves_take (z : Zone) (p : ℕ) : Moves z (rmvPageOrder (listDel z p) p) {p} 0 :=
  ((moves_freeList z _).trans (moves_setPage (listDel z p) p 0 (-1))).mono
    (Set.empty_union _).subset (add_zero 0)

/-- Linking a page and marking it. -/
theorem moves_put (z : Zone) (p o t : ℕ) (l : List ℕ) :
    Moves z (setPageOrder (setList z o t l) p o) {p} 0 :=
  ((moves_freeList z _).trans (moves_setPage (setList z o t l) p o (-2))).mono
    (Set.empty_union _).subset (add_zero 0)

/-- Setting a pageblock type. -/
theorem moves_setPageblockMigratetype (z : Zone) (p : ℕ) {t : ℕ} (ht : t < migrateTypes) :
    Moves z (setPageblockMigratetype z p t) ∅ 0 where
  startPfn_eq := rfl
  spannedPages_eq := rfl
  pfnValid_eq := rfl
  nrFreePages_eq := rfl
  marks _ := ⟨_, _, rfl⟩
  same _ _ := rfl
  types h i := by
    have hstored : (if z.mobilityDisabled then migrateUnmovable else t) % 8 < migrateTypes := by
      rw [migrateTypes] at ht ⊢
      split
      · decide
      · omega
    simp only [setPageblockMigratetype, Function.update_apply]
    split
    · exact hstored
    · exact h i
  freePages_eq := (add_zero _).symm

/-- The head of a block on a list is a page of the zone. -/
theorem FreeLists.head_mem (h : FreeLists id debt z) (hm : (p, o) ∈ blocks z) :
    p ∈ zonePages id z :=
  h.inside (span_subset_covered hm (mem_span_self p o))

/-- A marked page of the zone starts a block of its order, and only such pages do. -/
theorem FreeLists.marked_iff (h : FreeLists id debt z) (hp : p ∈ zonePages id z) :
    (p, o) ∈ blocks z ↔ pageBuddy (z.pages p) = true ∧ (z.pages p).word = o := by
  constructor
  · exact h.marked p o
  · rintro ⟨hb, rfl⟩
    exact h.listed p (Or.inl hp.1) hb

/-- `page_is_buddy` finds exactly the blocks of the given order on the lists. -/
theorem FreeLists.pageIsBuddy_iff (h : FreeLists id debt z) {q : ℕ} (hp : p ∈ zonePages id z) :
    pageIsBuddy z p q o = true ↔ (q, o) ∈ blocks z := by
  simp only [pageIsBuddy, Bool.and_eq_true, decide_eq_true_eq, and_assoc]
  constructor
  · rintro ⟨-, hz, hb, hw⟩
    have hq := h.listed q (Or.inr (hz.symm.trans hp.2.2)) hb
    rwa [hw] at hq
  · intro hq
    have hmem := h.head_mem hq
    exact ⟨hmem.2.1, hp.2.2.trans hmem.2.2.symm, h.marked q o hq⟩

/-- A page is on one list only. -/
theorem FreeLists.mem_unique (h : FreeLists id debt z) {k u : ℕ} (hm : p ∈ z.freeList o t)
    (hk : p ∈ z.freeList k u) : k = o ∧ u = t :=
  Prod.mk.inj (h.separate.unique p (k, u) (o, t) hk hm)

/-- The blocks left once a page is off its list. -/
theorem FreeLists.blocks_listDel (h : FreeLists id debt z) (hm : (p, o) ∈ blocks z) :
    blocks (listDel z p) = blocks z \ {(p, o)} := by
  obtain ⟨t, ht⟩ := mem_blocks.mp hm
  have hiff : ∀ q k u, q ∈ (listDel z p).freeList k u ↔ q ≠ p ∧ q ∈ z.freeList k u :=
    fun q k u => h.separate.mem_unlink (k := (k, u))
  ext ⟨q, k⟩
  simp only [mem_blocks, hiff, Set.mem_sdiff, Set.mem_singleton_iff]
  constructor
  · rintro ⟨u, hne, hu⟩
    exact ⟨⟨u, hu⟩, fun he => hne (Prod.mk.inj he).1⟩
  · rintro ⟨⟨u, hu⟩, hne⟩
    refine ⟨u, fun he => hne ?_, hu⟩
    rw [he] at hu
    rw [he, (h.mem_unique ht hu).1]

/-- Total lengths once a page is off its list. -/
theorem FreeLists.listTotal_listDel (h : FreeLists id debt z) (hm : (p, o) ∈ blocks z) (k : ℕ) :
    listTotal (listDel z p) k = listTotal z k - if k = o then 1 else 0 := by
  obtain ⟨t, ht⟩ := mem_blocks.mp hm
  have hdel : table (listDel z p) = unlink (table z) p := rfl
  rw [listTotal_eq, hdel, h.separate.total_unlink (k := (o, t)) ht, listTotal_eq]
  simp only [Finset.mem_product, Finset.mem_singleton, Finset.mem_range, h.typed p o t ht, and_true,
    eq_comm]

/-- The invariant depends on the missing counts only pointwise. -/
theorem FreeLists.debt_eq {debt' : ℕ → ℤ} (h : FreeLists id debt z) (he : ∀ k, debt k = debt' k) :
    FreeLists id debt' z := by
  have hfun : debt = debt' := funext he
  rwa [hfun] at h

/-- Changing a counter changes what is missing from it. -/
theorem FreeLists.addNrFree (h : FreeLists id debt z) (o : ℕ) (v : ℤ) :
    FreeLists id (fun k => debt k - if k = o then v else 0) (addNrFree z o v) where
  wf := h.wf
  typed := h.typed
  separate := h.separate
  marked := h.marked
  listed := h.listed
  inside := h.inside
  counted k := by
    have hk : (BuddyModel.addNrFree z o v).nrFree k = z.nrFree k + if k = o then v else 0 := by
      simp only [BuddyModel.addNrFree, Function.update_apply]
      by_cases hk : k = o
      · rw [if_pos hk, if_pos hk, hk]
      · rw [if_neg hk, if_neg hk, add_zero]
    have hc : listTotal (BuddyModel.addNrFree z o v) k = listTotal z k := rfl
    rw [hk, hc, ← h.counted k]
    ring

/-- Taking a block off its list and clearing its mark. -/
theorem FreeLists.take (h : FreeLists id debt z) (hm : (p, o) ∈ blocks z) :
    FreeLists id (fun k => debt k - if k = o then 1 else 0) (rmvPageOrder (listDel z p) p) := by
  have hmove : Moves z (rmvPageOrder (listDel z p) p) {p} 0 := moves_take z p
  have hblocks : blocks (rmvPageOrder (listDel z p) p) = blocks z \ {(p, o)} := h.blocks_listDel hm
  have hother : ∀ q, q ≠ p → (rmvPageOrder (listDel z p) p).pages q = z.pages q :=
    fun q hq => hmove.same q hq
  have hne : ∀ q k, (q, k) ∈ blocks z \ {(p, o)} → q ≠ p := fun q k hq he => by
    rw [he] at hq
    exact hq.2 (Set.mem_singleton_iff.mpr (by rw [h.wf.start_unique hm hq.1]))
  have hset : freeSet (rmvPageOrder (listDel z p) p) = freeSet z \ span p o := by
    rw [freeSet, hblocks, h.wf.covered_take hm, freeSet]
  refine ⟨?_, ?_, ?_, ?_, ?_, ?_, ?_⟩
  · rw [hblocks]
    exact h.wf.take (p, o)
  · exact fun q k u hq => h.typed q k u (List.mem_of_mem_erase hq)
  · exact h.separate.unlink p
  · intro q k hq
    rw [hblocks] at hq
    rw [hother q (hne q k hq)]
    exact h.marked q k hq.1
  · intro q hq hb
    by_cases hqp : q = p
    · rw [hqp] at hb
      simp only [rmvPageOrder, setPage_self, pageBuddy] at hb
      exact absurd hb (by decide)
    · rw [hmove.zoneSpan_eq, hmove.pageZoneId_eq] at hq
      rw [hother q hqp] at hb ⊢
      rw [hblocks]
      exact ⟨h.listed q hq hb, fun hs => hqp (Prod.mk.inj hs).1⟩
  · rw [hset, hmove.zonePages_eq]
    exact Set.sdiff_subset.trans h.inside
  · intro k
    have hn : (rmvPageOrder (listDel z p) p).nrFree k = z.nrFree k := rfl
    have ht : listTotal (rmvPageOrder (listDel z p) p) k = listTotal (listDel z p) k := rfl
    rw [hn, ht, h.listTotal_listDel hm, ← h.counted k]
    ring

/-- A member of a list after putting a page on one of them. -/
theorem mem_setList {l : List ℕ} (hl : l.Perm (p :: z.freeList o t)) {q k u : ℕ} :
    q ∈ (setList z o t l).freeList k u ↔ (q = p ∧ k = o ∧ u = t) ∨ q ∈ z.freeList k u := by
  have hlink := mem_link (f := table z) (k := (o, t)) (j := (k, u)) (y := q) hl
  rwa [← table_setList, Prod.mk.injEq] at hlink

/-- The blocks after putting a page on a list. -/
theorem blocks_setList {l : List ℕ} (hl : l.Perm (p :: z.freeList o t)) :
    blocks (setList z o t l) = insert (p, o) (blocks z) := by
  ext ⟨q, k⟩
  simp only [mem_blocks, mem_setList hl, Set.mem_insert_iff, Prod.mk.injEq, exists_or,
    exists_and_left, exists_eq, and_true]

/-- Total lengths after putting a page on a list. -/
theorem listTotal_setList {l : List ℕ} (ht : t < migrateTypes)
    (hl : l.Perm (p :: z.freeList o t)) (k : ℕ) :
    listTotal (setList z o t l) k = listTotal z k + if k = o then 1 else 0 := by
  rw [listTotal_eq, table_setList, total_link (f := table z) (k := (o, t)) hl, listTotal_eq]
  simp only [Finset.mem_product, Finset.mem_singleton, Finset.mem_range, ht, and_true, eq_comm]

/-- Migrate types stay within bounds when a page is put on a list. -/
theorem typed_setList (hz : ∀ q k u, q ∈ z.freeList k u → u < migrateTypes) (ht : t < migrateTypes)
    {l : List ℕ} (hl : l.Perm (p :: z.freeList o t)) {q k u : ℕ}
    (hq : q ∈ (setList z o t l).freeList k u) : u < migrateTypes := by
  rcases (mem_setList hl).mp hq with hs | hold
  · rw [hs.2.2]
    exact ht
  · exact hz q k u hold

/-- Marking a block and putting it on a list. -/
theorem FreeLists.put (h : FreeLists id debt z) (ho : o ≤ pageblockOrder) (ht : t < migrateTypes)
    (hal : 2 ^ o ∣ p) (hin : span p o ⊆ zonePages id z) (hfree : Disjoint (freeSet z) (span p o))
    (hnb : o < pageblockOrder → (buddy p o, o) ∉ blocks z) {l : List ℕ}
    (hl : l.Perm (p :: z.freeList o t)) :
    FreeLists id (fun k => debt k + if k = o then 1 else 0)
      (setPageOrder (setList z o t l) p o) := by
  have hmove : Moves z (setPageOrder (setList z o t l) p o) {p} 0 := moves_put z p o t l
  have hblocks : blocks (setPageOrder (setList z o t l) p o) = insert (p, o) (blocks z) :=
    blocks_setList hl
  have hother : ∀ q, q ≠ p → (setPageOrder (setList z o t l) p o).pages q = z.pages q :=
    fun q hq => hmove.same q hq
  have hself : (setPageOrder (setList z o t l) p o).pages p =
      { z.pages p with word := o, mapcount := -2 } := setPage_self _ _ _
  have hnew : p ∉ members (table z) := fun hp => by
    obtain ⟨k, hk⟩ := mem_members.mp hp
    exact Set.disjoint_left.mp hfree (span_subset_covered (mem_blocks.mpr ⟨k.2, hk⟩)
      (mem_span_self p k.1)) (mem_span_self p o)
  refine ⟨?_, ?_, ?_, ?_, ?_, ?_, ?_⟩
  · rw [hblocks]
    exact h.wf.put ho hal hfree hnb
  · exact fun q k u hq => typed_setList h.typed ht hl hq
  · have hlink := h.separate.link (k := (o, t)) hnew hl
    rwa [← table_setList] at hlink
  · intro q k hq
    rw [hblocks] at hq
    by_cases hqp : q = p
    · subst hqp
      have hk : k = o := by
        rcases Set.mem_insert_iff.mp hq with he | hold
        · exact (Prod.mk.inj he).2
        · obtain ⟨u, hu⟩ := mem_blocks.mp hold
          exact absurd (mem_members.mpr ⟨(k, u), hu⟩) hnew
      rw [hself, hk, pageBuddy]
      exact ⟨decide_eq_true rfl, rfl⟩
    · rw [hother q hqp]
      exact h.marked q k (Set.mem_of_mem_insert_of_ne hq (fun he => hqp (Prod.mk.inj he).1))
  · intro q hq hb
    rw [hblocks]
    by_cases hqp : q = p
    · rw [hqp, hself]
      exact Set.mem_insert _ _
    · rw [hmove.zoneSpan_eq, hmove.pageZoneId_eq] at hq
      rw [hother q hqp] at hb ⊢
      exact Set.mem_insert_of_mem _ (h.listed q hq hb)
  · rw [freeSet, hblocks, covered_put, hmove.zonePages_eq]
    exact Set.union_subset h.inside hin
  · intro k
    have hn : (setPageOrder (setList z o t l) p o).nrFree k = z.nrFree k := rfl
    have htot : listTotal (setPageOrder (setList z o t l) p o) k = listTotal (setList z o t l) k :=
      rfl
    rw [hn, htot, listTotal_setList ht hl, ← h.counted k]
    ring

/-- The set of free pages after marking a block and putting it on a list. -/
theorem freeSet_put {l : List ℕ} (hl : l.Perm (p :: z.freeList o t)) :
    freeSet (setPageOrder (setList z o t l) p o) = freeSet z ∪ span p o := by
  have hb : blocks (setPageOrder (setList z o t l) p o) = blocks (setList z o t l) := rfl
  rw [freeSet, hb, blocks_setList hl, covered_put, freeSet]

/-- The set of free pages after taking a block off its list. -/
theorem FreeLists.freeSet_take (h : FreeLists id debt z) (hm : (p, o) ∈ blocks z) :
    freeSet (rmvPageOrder (listDel z p) p) = freeSet z \ span p o := by
  have hb : blocks (rmvPageOrder (listDel z p) p) = blocks (listDel z p) := rfl
  rw [freeSet, hb, h.blocks_listDel hm, h.wf.covered_take hm, freeSet]

/-- Moving a block to the list of another type. -/
theorem FreeLists.retype (h : FreeLists id debt z) (hm : (p, o) ∈ blocks z)
    (ht : t < migrateTypes) :
    FreeLists id debt (listAdd (listDel z p) p o t) ∧
      blocks (listAdd (listDel z p) p o t) = blocks z := by
  have hperm := List.Perm.refl (p :: (listDel z p).freeList o t)
  have hblocks : blocks (listAdd (listDel z p) p o t) = blocks z := by
    rw [listAdd, blocks_setList hperm, h.blocks_listDel hm, Set.insert_sdiff_singleton,
      Set.insert_eq_of_mem hm]
  have hgone : p ∉ members (unlink (table z) p) := by
    rw [h.separate.members_unlink]
    exact fun hp => hp.2 (Set.mem_singleton p)
  have htyped : ∀ q k u, q ∈ (listDel z p).freeList k u → u < migrateTypes :=
    fun q k u hq => h.typed q k u (List.mem_of_mem_erase hq)
  refine ⟨⟨?_, ?_, ?_, ?_, ?_, ?_, ?_⟩, hblocks⟩
  · rw [hblocks]
    exact h.wf
  · exact fun q k u hq => typed_setList htyped ht hperm hq
  · have hlink := (h.separate.unlink p).link (k := (o, t)) hgone hperm
    rw [listAdd, table_setList]
    exact hlink
  · intro q k hq
    rw [hblocks] at hq
    exact h.marked q k hq
  · intro q hq hb
    rw [hblocks]
    exact h.listed q hq hb
  · rw [freeSet, hblocks]
    exact h.inside
  · intro k
    have hn : (listAdd (listDel z p) p o t).nrFree k = z.nrFree k := rfl
    rw [hn, listAdd, listTotal_setList ht hperm, h.listTotal_listDel hm, ← h.counted k]
    ring

end BiscuitOS.BuddyInvariant
