import BiscuitOS.BuddyHistory
import BiscuitOS.PcpLoops

/-!
# Histories of the page allocator of a zone

Frees and allocations of every order, through the per-cpu lists for single
pages, interleaved with owners changing the descriptors of the pages they
hold. The counters agree with the lists after every history, and every
operation ends, as long as the watermark and the batch fit in an `int`.
-/

namespace BiscuitOS.PcpHistory

open PageModel BuddyModel DyadicBlock ListTable BuddyInvariant BuddyHistory PcpModel PcpInvariant
  PcpLoops TransitionRun

/-- The operations on a zone. -/
inductive ZoneOp where
  /-- `free_hot_cold_page`. -/
  | freePage (page : ℕ) (cold : Bool)
  /-- `__free_pages_ok`. -/
  | freeBlock (page order : ℕ)
  /-- `buffered_rmqueue`. -/
  | alloc (order migratetype : ℕ) (gfp : GfpFlags)
  /-- The owner of a page changes its descriptor. -/
  | use (page : ℕ) (descriptor : Page)

/-- One operation; no state remains when it does not end. -/
def step (s : PcpZone) : ZoneOp → Option PcpZone
  | .freePage page cold => freeHotColdPage s page cold
  | .freeBlock page order => some (freePagesOk s page order)
  | .alloc order migratetype gfp => (bufferedRmqueue s order migratetype gfp).map Prod.snd
  | .use page descriptor =>
    some { s with zone := { s.zone with pages := setPage s.zone.pages page descriptor } }

/-- Frees are of held blocks, and owners neither mark a page free nor move it to another zone. -/
def Legal (id : ℕ) (s : PcpZone) : ZoneOp → Prop
  | .freePage page _ => page ∈ Held id s
  | .freeBlock page order => order < maxOrder ∧ 2 ^ order ∣ page ∧ span page order ⊆ Held id s
  | .alloc _ migratetype _ => migratetype < migrateTypes
  | .use page descriptor => page ∈ Held id s ∧
      pageZoneId descriptor = pageZoneId (s.zone.pages page) ∧ pageBuddy descriptor = false

/-- Single pages are requested for a migrate type that has a list. -/
def HasList : ZoneOp → Prop
  | .alloc order migratetype _ => order = 0 → migratetype < migratePcptypes
  | _ => True

/-- A pageset set up by `setup_pageset`, or by `setup_pagelist_highmark` after it. -/
inductive SetUp : PerCpuPages → Prop where
  | pageset (batch : ℕ) : SetUp (setupPageset batch)
  | highmark (batch high : ℕ) : SetUp (setupPagelistHighmark (setupPageset batch) high)

/-- A pageset whose watermark was computed without truncation. -/
inductive SetUpWithin : PerCpuPages → Prop where
  | pageset (batch : ℕ) (h : 6 * batch < 2 ^ 31) : SetUpWithin (setupPageset batch)
  | highmark (batch high : ℕ) (h : high < 2 ^ 31) :
    SetUpWithin (setupPagelistHighmark (setupPageset batch) high)

/-- The counters agree with the lists, no page is on two lists, and the drain is never asked
for more than the lists hold. -/
structure Accounted (id : ℕ) (s : PcpZone) : Prop where
  /-- `NR_FREE_PAGES` counts the pages of the free blocks. -/
  freePages : s.zone.nrFreePages = ∑ o ∈ Finset.range maxOrder, s.zone.nrFree o * 2 ^ o
  /-- `pcp->count` counts the pages of the pageset. -/
  count : s.pcp.count = ∑ t ∈ Finset.range migratePcptypes, ((s.pcp.lists t).length : ℤ)
  /-- No page is on the pageset and in a free block. -/
  apart : ∀ p t q o u, p ∈ s.pcp.lists t → q ∈ s.zone.freeList o u → p ∉ span q o
  /-- No page is twice on the pageset. -/
  pcpLists : (∀ t, (s.pcp.lists t).Nodup) ∧
    ∀ p t u, p ∈ s.pcp.lists t → p ∈ s.pcp.lists u → t = u
  /-- No page is twice on the free lists. -/
  freeLists : (∀ o t, (s.zone.freeList o t).Nodup) ∧
    ∀ p o t k u, p ∈ s.zone.freeList o t → p ∈ s.zone.freeList k u → (o, t) = (k, u)
  /-- A drain started by `free_hot_cold_page` is for pages that are there, and ends. -/
  drain : ∀ page ∈ Held id s, ∀ cold, (queuePage s page cold).checks = true →
    (queuePage s page cold).state.pcp.high ≤ (queuePage s page cold).state.pcp.count →
    0 < (queuePage s page cold).state.pcp.batch ∧
      (queuePage s page cold).state.pcp.batch ≤ ∑ t ∈ Finset.range migratePcptypes,
        (((queuePage s page cold).state.pcp.lists t).length : ℤ) ∧
      (freePcppagesBulk (queuePage s page cold).state
        (queuePage s page cold).state.pcp.batch).isSome

variable {id page order : ℕ} {s s' : PcpZone} {op : ZoneOp} {pcp : PerCpuPages} {z : Zone}

/-- Small numbers survive the conversion to `int`. -/
theorem toInt_eq {x : ℕ} (h : x < 2 ^ 31) : toInt x = x := by
  rw [toInt, MachineWord.toSigned_of_lt (by decide) h]

/-- The batch of a pageset is positive, and at most the watermark unless it is one. -/
theorem SetUpWithin.batch (h : SetUpWithin pcp) :
    1 ≤ pcp.batch ∧ pcp.batch ≤ max 1 pcp.high ∧ pcp.batch < 2 ^ 31 := by
  cases h with
  | pageset batch h =>
    simp only [setupPageset, toInt_eq h, toInt_eq (x := max 1 batch) (by omega)]
    omega
  | highmark batch high h =>
    simp only [setupPagelistHighmark, toInt_eq h, toInt_eq (x := max 1 (high / 4)) (by omega)]
    split <;> omega

/-- A fresh pageset holds nothing. -/
theorem SetUpWithin.empty (h : SetUpWithin pcp) : pcp.count = 0 ∧ pcp.lists = fun _ => [] := by
  cases h with
  | pageset batch h => exact ⟨rfl, rfl⟩
  | highmark batch high h => exact ⟨rfl, rfl⟩

/-- Nothing is missing from the counters in the initial state. -/
theorem initial_inv (hz : Untouched id z) (htypes : ∀ i, z.blockType i < migrateTypes)
    (hnr : z.nrFreePages = 0) (hp : SetUpWithin pcp) : PcpInv id 0 0 ⟨z, pcp⟩ := by
  obtain ⟨hcount, hlists⟩ := hp.empty
  have hnone : ∀ p t, p ∉ pcp.lists t := fun p t hm => by
    rw [hlists] at hm
    exact List.not_mem_nil hm
  have hmem : members pcp.lists = ∅ := by
    ext p
    simp only [mem_members, hnone, exists_false, Set.mem_empty_iff_false]
  refine ⟨hz.lists, htypes, ⟨fun t => ?_, fun p t _ ht => absurd ht (hnone p t)⟩,
    fun p t ht => absurd ht (hnone p t), ?_, ?_, fun p ht => ?_, ?_, ?_, hp.batch⟩
  · dsimp only
    rw [hlists]
    exact List.nodup_nil
  · dsimp only
    rw [hmem]
    exact Set.empty_subset _
  · dsimp only
    rw [hmem]
    exact Set.disjoint_empty _
  · dsimp only at ht
    rw [hmem] at ht
    exact absurd ht (Set.notMem_empty p)
  · simp only [hcount, hlists, total, List.length_nil, Nat.cast_zero, Finset.sum_const_zero,
      add_zero]
  · simp only [hnr, freePages, hz.nrFree_eq, zero_mul, Finset.sum_const_zero, add_zero]

/-- A held page is a held block of order zero. -/
theorem span_zero_subset (h : page ∈ Held id s) : span page 0 ⊆ Held id s := fun q hq => by
  simp only [span, Set.mem_Ico, pow_zero] at hq
  have he : q = page := by omega
  rw [he]
  exact h

/-- The checks before a free change the descriptors of the block only. -/
theorem checked_inv (h : PcpInv id 0 0 s) (hS : span page order ⊆ Held id s) :
    PcpInv id 0 0 { s with zone := { clearPageMlocked s.zone page with
        pages := (freePagesPrepare (clearPageMlocked s.zone page).pages page order).2 } } ∧
      Held id { s with zone := { clearPageMlocked s.zone page with
        pages := (freePagesPrepare (clearPageMlocked s.zone page).pages page order).2 } } =
        Held id s :=
  h.keeps ((keeps_clearPageMlocked (hS (mem_span_self page order))).trans
    (keeps_freePagesPrepare hS))

/-- `free_one_page` of a held block. -/
theorem zoneFreeOnePage_inv (h : PcpInv id 0 0 s) {t : ℕ} (ho : order < maxOrder)
    (ht : t < migrateTypes) (hal : 2 ^ order ∣ page) (hS : span page order ⊆ Held id s) :
    PcpInv id 0 0 { s with zone := zoneFreeOnePage s.zone page order t } :=
  ((h.freeHeld ho ht hal hS).modFreePages (2 ^ order)).congr rfl (by ring)

/-- `__free_pages_ok` keeps the invariant. -/
theorem freePagesOk_inv (h : PcpInv id 0 0 s) (ho : order < maxOrder) (hal : 2 ^ order ∣ page)
    (hS : span page order ⊆ Held id s) : PcpInv id 0 0 (freePagesOk s page order) := by
  obtain ⟨hinv, hheld⟩ := checked_inv h hS
  simp only [freePagesOk]
  split
  · exact zoneFreeOnePage_inv hinv ho (hinv.types _) hal (by rw [hheld]; exact hS)
  · exact hinv

/-- The first part of `free_hot_cold_page` keeps the invariant. -/
theorem queuePage_inv (h : PcpInv id 0 0 s) (hp : page ∈ Held id s) (cold : Bool) :
    PcpInv id 0 0 (queuePage s page cold).state ∧
      ((queuePage s page cold).checks = true →
        (queuePage s page cold).state.pcp.count = s.pcp.count + 1) := by
  obtain ⟨hinv, hheld⟩ := checked_inv h (span_zero_subset hp)
  rw [← hheld] at hp
  have htype := hinv.types
  simp only [queuePage]
  generalize { clearPageMlocked s.zone page with
    pages := (freePagesPrepare (clearPageMlocked s.zone page).pages page 0).2 } = z at *
  split
  · have ht : getPageblockMigratetype z page < migrateTypes := htype _
    generalize getPageblockMigratetype z page = t at ht
    obtain ⟨hset, hsame⟩ := hinv.keeps
      (keeps_setPage (d := { z.pages page with word := t }) rfl (fun hb => hb) hp)
    rw [← hsame] at hp
    split
    · have ho : 0 < maxOrder := by decide
      exact ⟨zoneFreeOnePage_inv hset ho ht (one_dvd page) (span_zero_subset hp),
        fun hc => by cases hc⟩
    · next hiso =>
      have hpcp : pcpType t < migratePcptypes := by
        rw [pcpType]
        split
        · decide
        · omega
      have hword : (setPage z.pages page { z.pages page with word := t } page).word <
          migrateTypes := by
        rw [setPage_self]
        exact ht
      have hperm : ∀ l : List ℕ, (if cold = true then l ++ [page] else page :: l).Perm
          (page :: l) := fun l => by
        split
        · exact List.perm_append_singleton _ _
        · exact List.Perm.refl _
      have hlink := hset.link hp hword hpcp (hperm _)
      exact ⟨(hlink.addCount 1).congr (by norm_num) rfl, fun _ => rfl⟩
  · exact ⟨hinv, fun hc => by cases hc⟩

/-- The drain started by `free_hot_cold_page` finds the pages it is asked for. -/
theorem drain_enough (h : PcpInv id 0 0 s) (hp : page ∈ Held id s) {cold : Bool}
    (hc : (queuePage s page cold).checks = true)
    (hhigh : (queuePage s page cold).state.pcp.high ≤ (queuePage s page cold).state.pcp.count) :
    0 < (queuePage s page cold).state.pcp.batch ∧
      (queuePage s page cold).state.pcp.batch ≤ pcpTotal (queuePage s page cold).state.pcp ∧
      ∃ s', freePcppagesBulk (queuePage s page cold).state
          (queuePage s page cold).state.pcp.batch = some s' ∧
        PcpInv id 0 0 (addCount s' (-s'.pcp.batch)) := by
  obtain ⟨hinv, hcount⟩ := queuePage_inv h hp cold
  have hold : 0 ≤ s.pcp.count := by
    have hpos := pcpTotal_nonneg s.pcp
    rw [h.count, add_zero]
    exact hpos
  have hone : 1 ≤ (queuePage s page cold).state.pcp.count := by
    rw [hcount hc]
    omega
  have htotal : (queuePage s page cold).state.pcp.count =
      pcpTotal (queuePage s page cold).state.pcp := by
    rw [hinv.count, add_zero, pcpTotal]
  generalize (queuePage s page cold).state = q at hinv hhigh hone htotal
  obtain ⟨hpos, hle, hlt⟩ := hinv.batch
  have hbatch : q.pcp.batch ≤ pcpTotal q.pcp := by omega
  obtain ⟨s', hs', hbulk, hsame⟩ := freePcppagesBulk_spec hinv (by omega) (by omega) hbatch
  have hb : s'.pcp.batch = q.pcp.batch := by rw [hsame]
  exact ⟨hpos, hbatch, s', hs', (hbulk.addCount _).congr (by rw [hb]; ring) rfl⟩

/-- `free_hot_cold_page` ends and keeps the invariant. -/
theorem freeHotColdPage_inv (h : PcpInv id 0 0 s) (hp : page ∈ Held id s) (cold : Bool) :
    ∃ s', freeHotColdPage s page cold = some s' ∧ PcpInv id 0 0 s' := by
  simp only [freeHotColdPage]
  split
  · next hc =>
    obtain ⟨-, -, s', hs', hinv⟩ := drain_enough h hp hc.1 hc.2
    exact ⟨_, by rw [hs', Option.map_some], hinv⟩
  · exact ⟨_, rfl, (queuePage_inv h hp cold).1⟩

/-- Every operation ends and keeps the invariant. -/
theorem step_inv (h : PcpInv id 0 0 s) (hl : Legal id s op) (ht : HasList op) :
    ∃ s', step s op = some s' ∧ PcpInv id 0 0 s' := by
  cases op with
  | freePage page cold => exact freeHotColdPage_inv h hl cold
  | freeBlock page order => exact ⟨_, rfl, freePagesOk_inv h hl.1 hl.2.1 hl.2.2⟩
  | alloc order migratetype gfp =>
    obtain ⟨r, hr, hinv, -⟩ := bufferedRmqueue_spec h hl ht gfp
    exact ⟨r.2, by rw [step, hr, Option.map_some], hinv⟩
  | use page descriptor =>
    have hmark : pageBuddy descriptor = true → pageBuddy (s.zone.pages page) = true := by
      rw [hl.2.2]
      exact fun hc => by cases hc
    exact ⟨_, rfl, (h.keeps (keeps_setPage hl.2.1 hmark hl.1)).1⟩

/-- The invariant says that the counters agree with the lists. -/
theorem accounted (h : PcpInv id 0 0 s) : Accounted id s where
  freePages := by rw [h.freePages, freePages, add_zero]
  count := by rw [h.count, total, add_zero]
  apart p t q o u hp hq hs := Set.disjoint_left.mp h.apart
    (span_subset_covered (mem_blocks.mpr ⟨u, hq⟩) hs) (mem_members.mpr ⟨t, hp⟩)
  pcpLists := ⟨h.separate.nodup, h.separate.unique⟩
  freeLists := ⟨fun o t => h.lists.separate.nodup (o, t),
    fun p o t k u hp hq => h.lists.separate.unique p (o, t) (k, u) hp hq⟩
  drain page hp cold hc hhigh := by
    obtain ⟨hpos, hle, s', hs', -⟩ := drain_enough h hp hc hhigh
    exact ⟨hpos, hle, by rw [hs']; rfl⟩

/-- From a zone with nothing freed yet, every history ends, and the counters agree with the
lists after it. -/
theorem history_accounted {ops : List ZoneOp} (hz : Untouched id z)
    (htypes : ∀ i, z.blockType i < migrateTypes) (hnr : z.nrFreePages = 0)
    (hp : SetUpWithin pcp)
    (hops : Admissible step (fun s op => Legal id s op ∧ HasList op) ⟨z, pcp⟩ ops) :
    ∃ s, exec step ⟨z, pcp⟩ ops = some s ∧ Accounted id s := by
  obtain ⟨s, he, hi⟩ := exec_total (fun _ _ h ha => step_inv h ha.1 ha.2)
    (initial_inv hz htypes hnr hp) hops
  exact ⟨s, he, accounted hi⟩

/-- The pages of the small zone are held at first. -/
theorem fourPages_held {q : ℕ} (hq : q ∈ Set.Ico 8 12) (hp : pcp.lists = fun _ => []) :
    q ∈ Held 0 ⟨fourPages, pcp⟩ := by
  refine ⟨fourPages_pages hq, ?_⟩
  rw [fourPages_untouched.freeSet_eq, Set.empty_union, hp]
  rintro ⟨t, ht⟩
  exact List.not_mem_nil ht

/-- A page is freed to the pageset and allocated again. -/
theorem history_accounted_two :
    ∃ s, exec step ⟨fourPages, setupPagelistHighmark (setupPageset 0) 8⟩
      [.freePage 8 false, .alloc 0 migrateMovable ⟨false, false⟩] = some s ∧ Accounted 0 s := by
  have htype : migrateMovable < migrateTypes := by decide
  have hlist : migrateMovable < migratePcptypes := by decide
  refine history_accounted fourPages_untouched (fun _ => htype) rfl
    (.highmark 0 8 (by decide)) ⟨⟨?_, trivial⟩, fun _ _ => ⟨⟨htype, fun _ => hlist⟩,
      fun _ _ => trivial⟩⟩
  exact fourPages_held (Set.mem_Ico.mpr ⟨le_refl 8, by decide⟩) rfl

/-- A watermark of two to the power of 31 becomes negative, and the drain asks for 96 pages when
the pageset holds one. A request for a single reserve page names a list that does not exist. -/
theorem history_truncated_counterexample :
    (Untouched 0 fourPages ∧ SetUp (setupPagelistHighmark (setupPageset 0) (2 ^ 31)) ∧
      Admissible step (Legal 0) ⟨fourPages, setupPagelistHighmark (setupPageset 0) (2 ^ 31)⟩
        [.freePage 8 false] ∧
      exec step ⟨fourPages, setupPagelistHighmark (setupPageset 0) (2 ^ 31)⟩
        [.freePage 8 false] = none) ∧
    SetUp (setupPageset 1) ∧
      Admissible step (Legal 0) ⟨fourPages, setupPageset 1⟩
        [.alloc 0 migrateReserve ⟨false, false⟩] ∧
      exec step ⟨fourPages, setupPageset 1⟩ [.alloc 0 migrateReserve ⟨false, false⟩] = none := by
  have htype : migrateReserve < migrateTypes := by decide
  refine ⟨⟨fourPages_untouched, .highmark 0 (2 ^ 31), ⟨?_, fun _ _ => trivial⟩, rfl⟩,
    .pageset 1, ⟨htype, fun _ _ => trivial⟩, rfl⟩
  exact fourPages_held (Set.mem_Ico.mpr ⟨le_refl 8, by decide⟩) rfl

end BiscuitOS.PcpHistory
