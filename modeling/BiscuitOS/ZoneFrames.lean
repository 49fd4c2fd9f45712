import BiscuitOS.BootPageset

/-!
# What an operation on a zone leaves alone

The free pages of a zone are those in its free blocks and those on its
pageset. Refills and drains move pages between the two. An allocation takes
the pages of its block from them, and a free adds no more than the pages of
its block. None of them changes a descriptor outside the zone.
-/

namespace BiscuitOS.ZoneFrames

open PageModel BuddyModel DyadicBlock ListTable BuddyInvariant BuddyBlock BuddyRemoval PcpModel
  PcpInvariant PcpLoops PcpHistory BootPageset MachineWord

/-- A change within the zone that frees no pages but those of `S`. -/
structure Framed (id : ℕ) (S : Set ℕ) (v v' : PcpZone) : Prop where
  /-- Descriptors of other zones stay. -/
  within : Within id v.zone v'.zone
  /-- Pages that become free. -/
  free : freePagesOf v' ⊆ freePagesOf v ∪ S

/-- A block as the buddy system forms them, whose pages are free. -/
structure FreeBlock (v : PcpZone) (page order : ℕ) : Prop where
  /-- Its order is that of a free list. -/
  order_lt : order < maxOrder
  /-- It starts at a multiple of its size. -/
  aligned : 2 ^ order ∣ page
  /-- Its pages are free. -/
  free : span page order ⊆ freePagesOf v

/-- No list of the zone has a page for a request. -/
structure Exhausted (v : PcpZone) (order t : ℕ) : Prop where
  /-- Single pages of the pageset. -/
  pageset : order = 0 → v.pcp.lists t = []
  /-- Free blocks. -/
  lists : ∀ o u, order ≤ o → o < maxOrder → u ≤ migrateReserve → v.zone.freeList o u = []

variable {id page order t n : ℕ} {S S' : Set ℕ} {v v' v'' : PcpZone} {z z' : Zone} {c f b : ℤ}

/-- Nothing changes. -/
theorem Framed.refl (id : ℕ) (v : PcpZone) : Framed id ∅ v v :=
  ⟨.refl id v.zone, Set.subset_union_left⟩

/-- One change after another. -/
theorem Framed.trans (h : Framed id S v v') (h' : Framed id S' v' v'') :
    Framed id (S ∪ S') v v'' where
  within := h.within.trans h'.within
  free := by
    have hfirst := Set.union_subset_union_left S' h.free
    rw [Set.union_assoc] at hfirst
    exact h'.free.trans hfirst

/-- One change after another, of which the second one frees nothing. -/
theorem Framed.quiet (h : Framed id S v v') (h' : Framed id ∅ v' v'') : Framed id S v v'' := by
  have hboth := h.trans h'
  rwa [Set.union_empty] at hboth

/-- One change after another, of which the first one frees nothing. -/
theorem Framed.after (h : Framed id ∅ v v') (h' : Framed id S v' v'') : Framed id S v v'' := by
  have hboth := h.trans h'
  rwa [Set.empty_union] at hboth

/-- A change that frees nothing frees no more than some pages. -/
theorem Framed.any (h : Framed id ∅ v v') (S : Set ℕ) : Framed id S v v' :=
  ⟨h.within, h.free.trans (Set.union_subset_union_right _ (Set.empty_subset S))⟩

/-- A change of descriptors of the zone. -/
theorem framed_keeps {pages' : Pages} (hk : Keeps v.zone.pages pages' S)
    (hS : S ⊆ zonePages id v.zone) :
    Framed id ∅ v { v with zone := { v.zone with pages := pages' } } :=
  ⟨.keeps hk hS, Set.subset_union_left⟩

/-- A change of the counters. -/
theorem framed_counts (c d : ℤ) :
    Framed id ∅ v { v with zone := modFreePages v.zone c, pcp := { v.pcp with count := d } } :=
  ⟨(Within.refl id v.zone).counted c, Set.subset_union_left⟩

/-- `__free_one_page` of a held block. -/
theorem framed_freeOnePage (h : PcpInv id c f v) (ho : order < maxOrder) (ht : t < migrateTypes)
    (hal : 2 ^ order ∣ page) (hS : span page order ⊆ Held id v) :
    Framed id (span page order) v { v with zone := freeOnePage v.zone page order t } := by
  have hdet : Detached id 0 v.zone page order :=
    ⟨h.lists, Nat.le_of_lt_succ ho, hal, fun q hq => (hS hq).1, held_not_free.mono_right hS⟩
  refine ⟨within_freeOnePage h ho ht hal hS, ?_⟩
  have hpages := (freeOnePage_spec hdet ht).pages
  rw [freePagesOf, freePagesOf]
  dsimp only
  rw [hpages, Set.union_right_comm]

/-- Moving a page of the pageset to the free lists. -/
theorem framed_drainPage (h : PcpInv id c f v) (hp : page ∈ v.pcp.lists t) :
    Framed id ∅ v { pcpDel v page with
      zone := freeOnePage (pcpDel v page).zone page 0 ((pcpDel v page).zone.pages page).word } := by
  have hm : page ∈ members v.pcp.lists := mem_members.mpr ⟨t, hp⟩
  obtain ⟨hdel, hheld⟩ := h.pcpDel hm
  have ho : 0 < maxOrder := by decide
  have hfree := framed_freeOnePage hdel ho (h.ownType page hm) (one_dvd page)
    (span_zero_subset hheld)
  have hmem : members (pcpDel v page).pcp.lists ⊆ members v.pcp.lists := by
    have hlists : (pcpDel v page).pcp.lists = unlink v.pcp.lists page := rfl
    rw [hlists, h.separate.members_unlink]
    exact Set.sdiff_subset
  refine ⟨hfree.within, hfree.free.trans ?_⟩
  refine Set.union_subset (fun q hq => .inl ?_) fun q hq => .inl (.inr ?_)
  · exact hq.imp (fun hin => hin) fun hin => hmem hin
  · rw [span, Set.mem_Ico, pow_zero] at hq
    have he : q = page := by omega
    rwa [he]

/-- The inner loop of `free_pcppages_bulk`. -/
theorem framed_drainList (n : ℕ) : ∀ {c f : ℤ} {v : PcpZone} {b : ℤ}, PcpInv id c f v →
    Framed id ∅ v (drainList v t b n).1 := by
  induction n with
  | zero => exact fun _ => .refl id _
  | succ n ih =>
    intro c f v b h
    rw [drainList]
    split
    · exact .refl id v
    · next page hlast =>
      have hp := List.mem_of_getLast? hlast
      have hone := framed_drainPage h hp
      dsimp only
      split
      · exact hone
      · exact hone.quiet (ih (drainPage h hp))

/-- The outer loop of `free_pcppages_bulk`. -/
theorem framed_bulkFrom (n : ℕ) : ∀ {c f : ℤ} {v v' : PcpZone} {b : ℤ} {t toFree : ℕ},
    PcpInv id c f v → t < migratePcptypes → bulkFrom v t b toFree n = some v' →
    Framed id ∅ v v' := by
  induction n with
  | zero =>
    intro c f v v' b t toFree h ht hrun
    rw [bulkFrom] at hrun
    split_ifs at hrun
    rw [← Option.some.inj hrun]
    exact .refl id v
  | succ n ih =>
    intro c f v v' b t toFree h ht hrun
    rw [bulkFrom] at hrun
    split at hrun
    · rw [← Option.some.inj hrun]
      exact .refl id v
    · next hne =>
      cases hnext : nextList v.pcp b t migratePcptypes with
      | none =>
        rw [hnext] at hrun
        cases hrun
      | some next =>
        rw [hnext] at hrun
        dsimp only at hrun
        obtain ⟨htype, hlist⟩ := nextList_found migratePcptypes ht hnext
        obtain ⟨m, rfl⟩ : ∃ m, toFree = m + 1 := Nat.exists_eq_succ_of_ne_zero hne
        obtain ⟨k, -, -, hdrained⟩ := drainList_spec (b := next.1) m h hlist
        exact (framed_drainList (m + 1) h).quiet (ih hdrained.inv htype hrun)

/-- `free_pcppages_bulk`. -/
theorem framed_freePcppagesBulk (h : PcpInv id c f v) {count : ℤ}
    (hrun : freePcppagesBulk v count = some v') : Framed id ∅ v v' := by
  rw [freePcppagesBulk, Option.map_eq_some_iff] at hrun
  obtain ⟨r, hr, rfl⟩ := hrun
  have hdrained := framed_bulkFrom (toUnsigned 32 count) h (by decide) hr
  exact hdrained.quiet (framed_counts count r.pcp.count)

/-- The first part of `free_hot_cold_page`. -/
theorem framed_queuePage (h : PcpInv id 0 0 v) (hp : page ∈ Held id v) (cold : Bool) :
    Framed id (span page 0) v (queuePage v page cold).state := by
  obtain ⟨hinv, hheld⟩ := checked_inv h (span_zero_subset hp)
  have hchecked : Framed id ∅ v { v with zone := { clearPageMlocked v.zone page with
      pages := (freePagesPrepare (clearPageMlocked v.zone page).pages page 0).2 } } :=
    ⟨within_checked (span_zero_subset hp), Set.subset_union_left⟩
  rw [← hheld] at hp
  have htype := hinv.types
  simp only [queuePage]
  generalize { clearPageMlocked v.zone page with
    pages := (freePagesPrepare (clearPageMlocked v.zone page).pages page 0).2 } = z at *
  split
  · have ht : getPageblockMigratetype z page < migrateTypes := htype _
    generalize getPageblockMigratetype z page = t at ht
    have hkeep : Keeps z.pages (setPage z.pages page { z.pages page with word := t })
        (Held id { v with zone := z }) := keeps_setPage rfl (fun hb => hb) hp
    obtain ⟨hset, hsame⟩ := hinv.keeps hkeep
    have hprivate : Framed id ∅ v { v with zone := setPagePrivate z page t } :=
      hchecked.quiet (framed_keeps hkeep (held_subset { v with zone := z }))
    rw [← hsame] at hp
    have ho : 0 < maxOrder := by decide
    split
    · have hfree := framed_freeOnePage hset ho ht (one_dvd page) (span_zero_subset hp)
      exact (hprivate.after hfree).quiet (framed_counts _ _)
    · refine hprivate.after ⟨.refl id _, ?_⟩
      intro q hq
      rcases hq with hfree | hmem
      · exact .inl (.inl hfree)
      · have hperm : ∀ l : List ℕ, (if cold = true then l ++ [page] else page :: l).Perm
            (page :: l) := fun l => by
          split
          · exact List.perm_append_singleton _ _
          · exact List.Perm.refl _
        have hlists := members_link (hperm (v.pcp.lists (pcpType t)))
        have hin : q ∈ insert page (members v.pcp.lists) := hlists ▸ hmem
        rcases Set.mem_insert_iff.mp hin with he | hold
        · rw [he]
          exact .inr (mem_span_self page 0)
        · exact .inl (.inr hold)
  · exact hchecked.any _

/-- `free_hot_cold_page`. -/
theorem framed_freeHotColdPage (h : PcpInv id 0 0 v) (hp : page ∈ Held id v) {cold : Bool}
    (hrun : freeHotColdPage v page cold = some v') : Framed id (span page 0) v v' := by
  have hqueued := framed_queuePage h hp cold
  simp only [freeHotColdPage] at hrun
  split at hrun
  · obtain ⟨r, hr, rfl⟩ := Option.map_eq_some_iff.mp hrun
    obtain ⟨hinv, -⟩ := queuePage_inv h hp cold
    exact (hqueued.quiet (framed_freePcppagesBulk hinv hr)).quiet
      ⟨.refl id _, Set.subset_union_left⟩
  · rw [← Option.some.inj hrun]
    exact hqueued

/-- `__free_pages_ok`. -/
theorem framed_freePagesOk (h : PcpInv id 0 0 v) (ho : order < maxOrder) (hal : 2 ^ order ∣ page)
    (hS : span page order ⊆ Held id v) :
    Framed id (span page order) v (freePagesOk v page order) := by
  obtain ⟨hinv, hheld⟩ := checked_inv h hS
  have hchecked : Framed id ∅ v { v with zone := { clearPageMlocked v.zone page with
      pages := (freePagesPrepare (clearPageMlocked v.zone page).pages page order).2 } } :=
    ⟨within_checked hS, Set.subset_union_left⟩
  rw [← hheld] at hS
  simp only [freePagesOk]
  generalize { clearPageMlocked v.zone page with
    pages := (freePagesPrepare (clearPageMlocked v.zone page).pages page order).2 } = z at *
  split
  · have hfree := framed_freeOnePage hinv ho (hinv.types ((page - z.startPfn) / pageblockNrPages))
      hal hS
    exact (hchecked.after hfree).quiet (framed_counts _ _)
  · exact hchecked.any _

/-- The search of `__rmqueue_smallest` fails when all lists are empty. -/
theorem smallestFrom_none (n : ℕ) : ∀ {z : Zone} {current : ℕ},
    smallestFrom z order t current n = none ↔
      ∀ o, current ≤ o → o < current + n → z.freeList o t = [] := by
  induction n with
  | zero => exact fun {z current} => iff_of_true rfl fun o hlow hhigh => by omega
  | succ n ih =>
    intro z current
    rw [smallestFrom]
    cases hlist : z.freeList current t with
    | cons page rest =>
      refine iff_of_false (fun hnone => by cases hnone) fun hall => ?_
      have hempty := hall current (le_refl current) (by omega)
      rw [hlist] at hempty
      cases hempty
    | nil =>
      dsimp only
      rw [ih]
      constructor
      · intro hrest o hlow hhigh
        rcases Nat.eq_or_lt_of_le hlow with rfl | hlt
        · exact hlist
        · exact hrest o hlt (by omega)
      · exact fun hall o hlow hhigh => hall o (by omega) (by omega)

/-- A row of the fallback table fails when the lists of its types are empty. -/
theorem fallbackTypes_none {start current : ℕ} {types : List ℕ} :
    fallbackTypes z order start current types = none ↔
      ∀ u ∈ types, u ≠ migrateReserve → z.freeList current u = [] := by
  induction types with
  | nil => exact iff_of_true rfl fun u hu => by cases hu
  | cons u types ih =>
    rw [fallbackTypes, List.forall_mem_cons]
    by_cases hu : u = migrateReserve
    · rw [if_pos hu, ih]
      exact (and_iff_right fun hne => absurd hu hne).symm
    · rw [if_neg hu]
      cases hlist : z.freeList current u with
      | nil =>
        dsimp only
        rw [ih]
        exact (and_iff_right fun _ => hlist ▸ rfl).symm
      | cons page rest =>
        refine iff_of_false (fun hnone => by cases hnone) fun hall => ?_
        have hempty := hall.1 hu
        cases hempty

/-- The search of `__rmqueue_fallback` fails when the lists of all types of the row are empty. -/
theorem fallbackFrom_none {start : ℕ} (n : ℕ) : fallbackFrom z order start n = none ↔
    ∀ o, order ≤ o → o < order + n → ∀ u ∈ fallbacks start, u ≠ migrateReserve →
      z.freeList o u = [] := by
  induction n with
  | zero => exact iff_of_true rfl fun o hlow hhigh => by omega
  | succ n ih =>
    rw [fallbackFrom]
    cases hrow : fallbackTypes z order start (order + n) (fallbacks start) with
    | some r =>
      refine iff_of_false (fun hnone => by cases hnone) fun hall => ?_
      have hnone : fallbackTypes z order start (order + n) (fallbacks start) = none :=
        fallbackTypes_none.mpr (hall (order + n) (by omega) (by omega))
      rw [hnone] at hrow
      cases hrow
    | none =>
      dsimp only
      rw [ih]
      constructor
      · intro hrest o hlow hhigh
        by_cases ho : o = order + n
        · rw [ho]
          exact fallbackTypes_none.mp hrow
        · exact hrest o hlow (by omega)
      · exact fun hall o hlow hhigh => hall o hlow (by omega)

/-- The types that a request for a listed type falls back to. -/
theorem fallbacks_cover (ht : t < migratePcptypes) {u : ℕ} (hu : u ≤ migrateReserve) :
    u = t ∨ u = migrateReserve ∨ u ∈ fallbacks t := by
  rw [migratePcptypes] at ht
  rw [migrateReserve] at hu
  interval_cases t <;> interval_cases u <;> decide

/-- `__rmqueue` fails exactly when there is no free block that is large enough. -/
theorem rmqueue_none (ht : t < migratePcptypes) : rmqueue z order t = none ↔
    ∀ o u, order ≤ o → o < maxOrder → u ≤ migrateReserve → z.freeList o u = [] := by
  have hreserve : t ≠ migrateReserve := by
    rw [migratePcptypes] at ht
    rw [migrateReserve]
    omega
  have hrange : ∀ o, order ≤ o → (o < maxOrder ↔ o < order + (maxOrder - order)) := by
    intro o ho
    omega
  rw [rmqueue, rmqueueFallback, rmqueueSmallest, rmqueueSmallest]
  constructor
  · intro hnone o u hlow hhigh hu
    cases hfirst : smallestFrom z order t order (maxOrder - order) with
    | some r =>
      rw [hfirst] at hnone
      cases hnone
    | none =>
      rw [hfirst] at hnone
      dsimp only at hnone
      rw [if_neg hreserve] at hnone
      cases hsecond : fallbackFrom z order t (maxOrder - order) with
      | some r =>
        rw [hsecond] at hnone
        cases hnone
      | none =>
        rw [hsecond] at hnone
        dsimp only at hnone
        have ho := (hrange o hlow).mp hhigh
        by_cases huR : u = migrateReserve
        · rw [huR]
          exact (smallestFrom_none _).mp hnone o hlow ho
        · rcases fallbacks_cover ht hu with rfl | hc | hmem
          · exact (smallestFrom_none _).mp hfirst o hlow ho
          · exact absurd hc huR
          · exact (fallbackFrom_none _).mp hsecond o hlow ho u hmem huR
  · intro hall
    have hempty : ∀ u ≤ migrateReserve, ∀ o, order ≤ o → o < order + (maxOrder - order) →
        z.freeList o u = [] := fun u hu o hlow hhigh =>
      hall o u hlow ((hrange o hlow).mpr hhigh) hu
    have hfirst : smallestFrom z order t order (maxOrder - order) = none :=
      (smallestFrom_none _).mpr (hempty t (by rw [migratePcptypes] at ht; rw [migrateReserve]; omega))
    have hsecond : fallbackFrom z order t (maxOrder - order) = none := by
      refine (fallbackFrom_none _).mpr fun o hlow hhigh u hu _ => hempty u ?_ o hlow hhigh
      rw [migratePcptypes] at ht
      have hrow : ∀ u ∈ fallbacks t, u ≤ migrateReserve := by interval_cases t <;> decide
      exact hrow u hu
    rw [hfirst]
    dsimp only
    rw [if_neg hreserve, hsecond]
    exact (smallestFrom_none _).mpr (hempty migrateReserve (le_refl _))

/-- Handing out a free block. -/
theorem framed_handOut (h : PcpInv id c f v) (hr : HandedOut id 0 v.zone page order z') :
    Framed id ∅ v { v with zone := z' } ∧ FreeBlock v page order := by
  have hpages := hr.pages
  refine ⟨⟨.moves hr.moves h.lists.inside, fun q hq => ?_⟩,
    ⟨Nat.lt_succ_of_le hr.detached.order_le, hr.detached.aligned, fun q hq => ?_⟩⟩
  · refine .inl (hq.imp (fun hin => ?_) fun hin => hin)
    rw [← hpages]
    exact .inl hin
  · rw [freePagesOf, ← hpages]
    exact .inl (.inr hq)

/-- The loop of `rmqueue_bulk`. -/
theorem framed_rmqueueBulkFrom (cold : Bool) (ht : t < migratePcptypes) (n : ℕ) :
    ∀ {z : Zone} {before after : List ℕ} {i : ℕ} {c f : ℤ},
    PcpInv id c f (setPcpList { v with zone := z } t (before ++ after)) →
    Framed id ∅ (setPcpList { v with zone := z } t (before ++ after))
      (setPcpList { v with zone := (rmqueueBulkFrom z 0 t cold before after i n).1 } t
        (rmqueueBulkFrom z 0 t cold before after i n).2.2) := by
  have htypes : t < migrateTypes := Nat.lt_trans ht (by decide)
  induction n with
  | zero => exact fun _ => .refl id _
  | succ n ih =>
    intro z before after i c f h
    rw [rmqueueBulkFrom]
    split
    · exact .refl id _
    · next r hr =>
      have hout := rmqueue_spec (z := z) h.lists htypes hr
      obtain ⟨hinv, hheld⟩ := h.handOut hout
      obtain ⟨hframe, hfree⟩ := framed_handOut h hout
      have hpage := hheld (mem_span_self r.1 0)
      have hkeep : Keeps r.2.pages (setPage r.2.pages r.1 { r.2.pages r.1 with word := t })
          (Held id { setPcpList { v with zone := z } t (before ++ after) with zone := r.2 }) :=
        keeps_setPage rfl (fun hb => hb) hpage
      obtain ⟨hset, hsame⟩ := hinv.keeps hkeep
      have hprivate := hframe.quiet (framed_keeps hkeep (held_subset _))
      have hword : (setPage r.2.pages r.1 { r.2.pages r.1 with word := t } r.1).word = t := by
        rw [setPage_self]
      have hlist : (setPcpList { v with zone := z } t (before ++ after)).pcp.lists t =
          before ++ after := by
        simp only [setPcpList, Function.update_self]
      rw [← hsame] at hpage
      have hlink : ∀ l, l.Perm (r.1 :: (before ++ after)) →
          PcpInv id (c - 1) (f + 1) (setPcpList { v with zone := setPagePrivate r.2 r.1 t } t l) ∧
          Framed id ∅ (setPcpList { v with zone := z } t (before ++ after))
            (setPcpList { v with zone := setPagePrivate r.2 r.1 t } t l) := fun l hl => by
        have hperm : l.Perm (r.1 :: (setPcpList { v with zone := z } t
            (before ++ after)).pcp.lists t) := by rwa [hlist]
        have hstep := hset.link hpage (by dsimp only; rw [hword]; exact htypes) ht hperm
        simp only [setPcpList, Function.update_idem] at hstep
        refine ⟨hstep.congr rfl (by norm_num), hprivate.within, fun q hq => .inl ?_⟩
        rcases hq with hq | hq
        · exact (hprivate.free (.inl hq)).elim (fun hin => hin) fun hin => (by cases hin)
        · have hmem := members_link hperm
          simp only [setPcpList, Function.update_idem] at hmem
          have hin : q ∈ members (Function.update v.pcp.lists t l) := hq
          rw [hmem] at hin
          rcases Set.mem_insert_iff.mp hin with he | hold
          · rw [he]
            exact hfree.free (mem_span_self r.1 0)
          · exact .inr hold
      dsimp only
      split
      · obtain ⟨hnext, hdone⟩ := hlink (before ++ r.1 :: after) List.perm_middle
        exact hdone.quiet (ih hnext)
      · obtain ⟨hnext, hdone⟩ := hlink (before ++ [r.1] ++ after) (by
          rw [List.append_assoc]
          exact List.perm_middle)
        exact hdone.quiet (ih hnext)

/-- `rmqueue_bulk`. -/
theorem framed_rmqueueBulk (h : PcpInv id 0 0 v) (ht : t < migratePcptypes) (cold : Bool) (n : ℕ) :
    Framed id ∅ v (rmqueueBulk v 0 n t cold).1 := by
  simp only [rmqueueBulk]
  have hself : setPcpList { v with zone := v.zone } t (v.pcp.lists t) = v := setPcpList_self v t
  cases cold with
  | true =>
    have hstart : setPcpList { v with zone := v.zone } t (v.pcp.lists t ++ []) = v := by
      rw [List.append_nil, hself]
    have hbulk := framed_rmqueueBulkFrom (v := v) (i := 0) true ht n (hstart.symm ▸ h)
    rw [hstart] at hbulk
    exact hbulk.quiet ⟨(Within.refl id _).counted _, Set.subset_union_left⟩
  | false =>
    have hstart : setPcpList { v with zone := v.zone } t ([] ++ v.pcp.lists t) = v := hself
    have hbulk := framed_rmqueueBulkFrom (v := v) (i := 0) false ht n (hstart.symm ▸ h)
    rw [hstart] at hbulk
    exact hbulk.quiet ⟨(Within.refl id _).counted _, Set.subset_union_left⟩

/-- One attempt of `buffered_rmqueue`: a block was free before. -/
theorem framed_takePages (h : PcpInv id 0 0 v) (ht : t < migrateTypes)
    (hpcp : order = 0 → t < migratePcptypes) (cold : Bool) :
    Framed id ∅ v (takePages v order t cold).2 ∧
      ∀ page ∈ (takePages v order t cold).1, FreeBlock v page order := by
  rw [takePages]
  split
  · next ho =>
    subst ho
    have hfill : ∃ u, (if v.pcp.lists t = [] then
        addCount (rmqueueBulk v 0 (toUnsigned 64 v.pcp.batch) t cold).1
          (rmqueueBulk v 0 (toUnsigned 64 v.pcp.batch) t cold).2 else v) = u ∧
        PcpInv id 0 0 u ∧ Framed id ∅ v u := by
      split
      · exact ⟨_, rfl, (rmqueueBulk_spec h (hpcp rfl) cold _).1,
          (framed_rmqueueBulk h (hpcp rfl) cold _).quiet ⟨.refl id _, Set.subset_union_left⟩⟩
      · exact ⟨v, rfl, h, .refl id v⟩
    obtain ⟨u, hu, hinv, hframe⟩ := hfill
    dsimp only
    rw [hu]
    split
    · exact ⟨hframe, fun _ hc => (by cases hc)⟩
    · next page hpage =>
      have hmem : page ∈ u.pcp.lists t := by
        split at hpage
        · exact List.mem_of_getLast? hpage
        · exact List.mem_of_head? hpage
      have hin : page ∈ members u.pcp.lists := mem_members.mpr ⟨t, hmem⟩
      have hless : members (pcpDel u page).pcp.lists ⊆ members u.pcp.lists := by
        have hlists : (pcpDel u page).pcp.lists = unlink u.pcp.lists page := rfl
        rw [hlists, hinv.separate.members_unlink]
        exact Set.sdiff_subset
      refine ⟨hframe.quiet ⟨.refl id _, fun q hq => .inl (hq.imp (fun hq => hq) fun hq => hless hq)⟩,
        fun p hp => ⟨by decide, one_dvd p, fun q hq => ?_⟩⟩
      rw [← Option.some.inj hp, span, Set.mem_Ico, pow_zero] at hq
      have he : q = page := by omega
      rw [he]
      exact (hframe.free (.inr hin)).elim (fun hold => hold) fun hnone => (by cases hnone)
  · split
    · exact ⟨.refl id v, fun _ hc => (by cases hc)⟩
    · next r hr =>
      obtain ⟨hframe, hfree⟩ := framed_handOut h (rmqueue_spec h.lists ht hr)
      refine ⟨hframe.quiet ⟨(Within.refl id _).counted _, Set.subset_union_left⟩, fun p hp => ?_⟩
      rw [← Option.some.inj hp]
      exact hfree

/-- The retries of `buffered_rmqueue`. -/
theorem framed_bufferedFrom (ht : t < migrateTypes) (hpcp : order = 0 → t < migratePcptypes)
    (gfp : GfpFlags) (n : ℕ) : ∀ {v : PcpZone} {r : Option ℕ × PcpZone}, PcpInv id 0 0 v →
    bufferedFrom v order t gfp n = some r →
    Framed id ∅ v r.2 ∧ ∀ page ∈ r.1, FreeBlock v page order := by
  induction n with
  | zero =>
    intro v r _ hrun
    cases hrun
  | succ n ih =>
    intro v r h hrun
    have htaken := takePages_spec h ht hpcp gfp.cold
    obtain ⟨hframe, hfree⟩ := @framed_takePages id order t v h ht hpcp gfp.cold
    rw [bufferedFrom] at hrun
    generalize takePages v order t gfp.cold = q at htaken hframe hfree hrun
    dsimp only at hrun
    cases hq : q.1 with
    | none =>
      rw [hq] at hrun
      rw [← Option.some.inj hrun]
      exact ⟨hframe, fun _ hc => by cases hc⟩
    | some page =>
      rw [hq] at hrun
      dsimp only at hrun
      have hkeep := @keeps_prepNewPage q.2.zone.pages _ page order gfp (htaken.held page hq)
      obtain ⟨hinv, -⟩ := htaken.inv.keeps hkeep
      have hprepared := hframe.quiet (framed_keeps hkeep (held_subset q.2))
      split at hrun
      · obtain ⟨hlast, hfree'⟩ := ih hinv hrun
        refine ⟨hprepared.quiet hlast, fun p hp => ⟨(hfree' p hp).order_lt, (hfree' p hp).aligned,
          fun q' hq' => ?_⟩⟩
        exact (hprepared.free ((hfree' p hp).free hq')).elim (fun hold => hold)
          fun hnone => by cases hnone
      · rw [← Option.some.inj hrun]
        refine ⟨hprepared, fun p hp => ?_⟩
        rw [← Option.some.inj hp]
        exact hfree page hq

/-- `buffered_rmqueue` frees nothing, and a block that it gives was free. -/
theorem framed_bufferedRmqueue (h : PcpInv id 0 0 v) (ht : t < migrateTypes)
    (hpcp : order = 0 → t < migratePcptypes) {gfp : GfpFlags} {r : Option ℕ × PcpZone}
    (hrun : bufferedRmqueue v order t gfp = some r) :
    Framed id ∅ v r.2 ∧ ∀ page ∈ r.1, FreeBlock v page order := by
  have hok : ¬ (order = 0 ∧ migratePcptypes ≤ t) := fun hc => Nat.not_le_of_lt (hpcp hc.1) hc.2
  rw [bufferedRmqueue, if_neg hok] at hrun
  exact framed_bufferedFrom ht hpcp gfp _ h hrun

/-- A refill fails at once when there is no free block. -/
theorem rmqueueBulk_none (hnone : rmqueue v.zone 0 t = none) (hempty : v.pcp.lists t = [])
    (cold : Bool) (n : ℕ) :
    addCount (rmqueueBulk v 0 n t cold).1 (rmqueueBulk v 0 n t cold).2 = v := by
  have htaken : ∀ cold, rmqueueBulkFrom v.zone 0 t cold [] [] 0 n = (v.zone, 0, []) := by
    intro cold
    cases n with
    | zero => rfl
    | succ n =>
      rw [rmqueueBulkFrom, hnone]
      rfl
  have hself : Function.update v.pcp.lists t [] = v.pcp.lists := by
    rw [← hempty, Function.update_eq_self]
  simp only [rmqueueBulk, hempty, htaken, ite_self, setPcpList, hself, addCount, modFreePages,
    zero_mul, Nat.cast_zero, neg_zero, add_zero]

/-- With nothing on any list the refill and the removal fail. -/
theorem Exhausted.takePages (h : Exhausted v order t) (ht : t < migratePcptypes) (cold : Bool) :
    takePages v order t cold = (none, v) := by
  have hnone := (rmqueue_none ht).mpr h.lists
  rw [PcpModel.takePages]
  split
  · next ho =>
    subst ho
    have hempty := h.pageset rfl
    dsimp only
    rw [if_pos hempty, rmqueueBulk_none hnone hempty, hempty]
    cases cold <;> rfl
  · rw [hnone]

/-- With nothing on any list an allocation fails and changes nothing. -/
theorem Exhausted.bufferedRmqueue (h : Exhausted v order t) (ht : t < migratePcptypes)
    (gfp : GfpFlags) : bufferedRmqueue v order t gfp = some (none, v) := by
  rw [PcpModel.bufferedRmqueue, if_neg fun hc => Nat.not_le_of_lt ht hc.2, bufferedFrom,
    h.takePages ht]

/-- A refill keeps what is linked. -/
theorem rmqueueBulkFrom_kept (cold : Bool) (n : ℕ) : ∀ {z : Zone} {before after : List ℕ} {i : ℕ},
    before ++ after ≠ [] → (rmqueueBulkFrom z 0 t cold before after i n).2.2 ≠ [] := by
  induction n with
  | zero => exact fun hne => hne
  | succ n ih =>
    intro z before after i hne
    rw [rmqueueBulkFrom]
    split
    · exact hne
    · dsimp only
      split
      · exact ih (by simp)
      · exact ih (by simp)

/-- A refill links a page when there is a free block. -/
theorem rmqueueBulk_some {r : ℕ × Zone} (hr : rmqueue v.zone 0 t = some r) (cold : Bool) (n : ℕ) :
    (rmqueueBulk v 0 (n + 1) t cold).1.pcp.lists t ≠ [] := by
  simp only [rmqueueBulk, setPcpList, Function.update_self]
  cases cold with
  | true =>
    rw [if_pos rfl, rmqueueBulkFrom, hr]
    exact rmqueueBulkFrom_kept true n (by simp)
  | false =>
    rw [if_neg Bool.false_ne_true, rmqueueBulkFrom, hr]
    exact rmqueueBulkFrom_kept false n (by simp)

/-- A list that is not empty has a page at either end. -/
theorem ends_some {l : List ℕ} (hne : l ≠ []) (cold : Bool) :
    ∃ page, (if cold then l.getLast? else l.head?) = some page := by
  cases cold with
  | true => exact ⟨_, List.getLast?_eq_some_getLast hne⟩
  | false => exact ⟨_, List.head?_eq_some_head hne⟩

/-- An attempt that fails leaves nothing on any list. -/
theorem takePages_exhausted (h : PcpInv id 0 0 v) (ht : t < migratePcptypes) (cold : Bool)
    (hnone : (takePages v order t cold).1 = none) :
    Exhausted (takePages v order t cold).2 order t := by
  by_cases ho : order = 0
  · subst ho
    by_cases hempty : v.pcp.lists t = []
    · cases hr : rmqueue v.zone 0 t with
      | none =>
        have hall : Exhausted v 0 t := ⟨fun _ => hempty, (rmqueue_none ht).mp hr⟩
        rw [hall.takePages ht]
        exact hall
      | some r =>
        exfalso
        have hbatch : ∃ n, toUnsigned 64 v.pcp.batch = n + 1 := by
          have hval : (toUnsigned 64 v.pcp.batch : ℤ) = v.pcp.batch :=
            toUnsigned_of_lt (by have := h.batch.1; omega) (by have := h.batch.2.2; omega)
          have hpos := h.batch.1
          exact Nat.exists_eq_succ_of_ne_zero (by omega)
        obtain ⟨n, hn⟩ := hbatch
        obtain ⟨page, hpage⟩ := ends_some (rmqueueBulk_some hr cold n) cold
        rw [PcpModel.takePages, if_pos rfl, if_pos hempty, hn] at hnone
        simp only [addCount, hpage] at hnone
        cases hnone
    · exfalso
      obtain ⟨page, hpage⟩ := ends_some hempty cold
      rw [PcpModel.takePages, if_pos rfl, if_neg hempty] at hnone
      simp only [hpage] at hnone
      cases hnone
  · rw [PcpModel.takePages, if_neg ho] at hnone ⊢
    cases hr : rmqueue v.zone order t with
    | none => exact ⟨fun hc => absurd hc ho, (rmqueue_none ht).mp hr⟩
    | some r =>
      rw [hr] at hnone
      cases hnone

/-- The retries fail with nothing left on any list. -/
theorem bufferedFrom_exhausted (ht : t < migratePcptypes) (gfp : GfpFlags) (n : ℕ) :
    ∀ {v : PcpZone} {r : Option ℕ × PcpZone}, PcpInv id 0 0 v →
    bufferedFrom v order t gfp n = some r → r.1 = none → Exhausted r.2 order t := by
  have htypes : t < migrateTypes := Nat.lt_trans ht (by decide)
  induction n with
  | zero =>
    intro v r _ hrun
    cases hrun
  | succ n ih =>
    intro v r h hrun hnone
    have htaken := takePages_spec h htypes (fun _ => ht) gfp.cold (o := order)
    have hlast := @takePages_exhausted id order t v h ht gfp.cold
    rw [bufferedFrom] at hrun
    generalize takePages v order t gfp.cold = q at htaken hlast hrun
    dsimp only at hrun
    cases hq : q.1 with
    | none =>
      rw [hq] at hrun
      rw [← Option.some.inj hrun]
      exact hlast hq
    | some page =>
      rw [hq] at hrun
      dsimp only at hrun
      obtain ⟨hinv, -⟩ := htaken.inv.keeps (keeps_prepNewPage gfp (htaken.held page hq))
      split at hrun
      · exact ih hinv hrun hnone
      · rw [← Option.some.inj hrun] at hnone
        cases hnone

/-- `buffered_rmqueue` gives none only when nothing is left on any list. -/
theorem bufferedRmqueue_exhausted (h : PcpInv id 0 0 v) (ht : t < migratePcptypes) {gfp : GfpFlags}
    (hrun : bufferedRmqueue v order t gfp = some (none, v')) : Exhausted v' order t := by
  rw [PcpModel.bufferedRmqueue, if_neg fun hc => Nat.not_le_of_lt ht hc.2] at hrun
  exact bufferedFrom_exhausted ht gfp _ h hrun rfl

end BiscuitOS.ZoneFrames
