import BiscuitOS.BuddyBlock

/-!
# Handing out blocks

`__rmqueue` in all its stages. The fallback moves the free blocks of a
pageblock to other lists before it takes the one it found, which is already
missing from its counter.
-/

namespace BiscuitOS.BuddyRemoval

open PageModel BuddyModel DyadicBlock BuddyInvariant BuddyBlock

/-- What moving blocks between lists of their orders does: the blocks stay. -/
structure Retyped (id : ℕ) (debt : ℕ → ℤ) (z z' : Zone) : Prop where
  lists : FreeLists id debt z'
  blocks_eq : blocks z' = blocks z
  moves : Moves z z' ∅ 0

variable {z z' z'' : Zone} {p o t id n low start last current : ℕ} {debt : ℕ → ℤ}

/-- Nothing moved. -/
theorem Retyped.refl (h : FreeLists id debt z) : Retyped id debt z z :=
  ⟨h, rfl, Moves.refl z⟩

/-- One move after another. -/
theorem Retyped.trans (h : Retyped id debt z z') (h' : Retyped id debt z' z'') :
    Retyped id debt z z'' :=
  ⟨h'.lists, h'.blocks_eq.trans h.blocks_eq,
    (h.moves.trans h'.moves).mono (Set.union_empty _).subset (add_zero 0)⟩

/-- Moving one block. -/
theorem retyped_listAdd (h : FreeLists id debt z) (hm : (p, o) ∈ blocks z)
    (ht : t < migrateTypes) : Retyped id debt z (listAdd (listDel z p) p o t) :=
  ⟨(h.retype hm ht).1, (h.retype hm ht).2, moves_freeList z _⟩

/-- The type of a pageblock does not matter to the lists. -/
theorem retyped_setPageblockMigratetype (h : FreeLists id debt z) (p : ℕ)
    (ht : t < migrateTypes) : Retyped id debt z (setPageblockMigratetype z p t) :=
  ⟨⟨h.wf, h.typed, h.separate, h.marked, h.listed, h.inside, h.counted⟩, rfl,
    moves_setPageblockMigratetype z p ht⟩

/-- The loop of `move_freepages` within the zone moves whole blocks. -/
theorem moveFrom_spec (n : ℕ) (ht : t < migrateTypes) : ∀ {z : Zone} {p : ℕ} (moved : ℕ),
    FreeLists id debt z → z.startPfn ≤ p → last < z.startPfn + z.spannedPages →
    Retyped id debt z (moveFrom z p last t moved n).1 := by
  induction n with
  | zero => exact fun _ h _ _ => Retyped.refl h
  | succ n ih =>
    intro z p moved h hp hlast
    simp only [moveFrom]
    by_cases hle : p ≤ last
    · rw [if_pos hle]
      by_cases hb : z.pfnValid p ∧ pageBuddy (z.pages p)
      · rw [if_pos hb]
        have hspan : p ∈ zoneSpan z := Set.mem_Ico.mpr ⟨hp, by omega⟩
        have hone := retyped_listAdd h (h.listed p (Or.inl hspan) hb.2) ht
        exact hone.trans (ih _ hone.lists (Nat.le_add_right_of_le hp) hlast)
      · rw [if_neg hb]
        exact ih _ h (Nat.le_succ_of_le hp) hlast
    · rw [if_neg hle]
      exact Retyped.refl h

/-- `move_freepages_block` on a page of the zone. -/
theorem moveFreepagesBlock_spec (h : FreeLists id debt z) (hp : p ∈ zoneSpan z)
    (ht : t < migrateTypes) : Retyped id debt z (moveFreepagesBlock z p t).1 := by
  simp only [moveFreepagesBlock]
  split
  · exact Retyped.refl h
  · next hend =>
    refine moveFrom_spec _ ht _ h ?_ (Nat.lt_of_not_le hend)
    split
    · exact (Set.mem_Ico.mp hp).1
    · next hstart => exact Nat.le_of_not_lt hstart

/-- Taking over a pageblock. -/
theorem takeBlock_spec (h : FreeLists id debt z) (hp : p ∈ zoneSpan z)
    (ht : t < migrateTypes) : Retyped id debt z (takeBlock z p t) := by
  have hmove := moveFreepagesBlock_spec h hp ht
  simp only [takeBlock]
  split
  · exact hmove.trans (retyped_setPageblockMigratetype hmove.lists p ht)
  · exact hmove

/-- `change_pageblock_range`. -/
theorem changePageblockRange_spec (n : ℕ) (ht : t < migrateTypes) : ∀ {z : Zone} (p : ℕ),
    FreeLists id debt z → Retyped id debt z (changePageblockRange z p t n) := by
  induction n with
  | zero => exact fun _ h => Retyped.refl h
  | succ n ih =>
    intro z p h
    have hone := retyped_setPageblockMigratetype h p ht
    exact hone.trans (ih _ hone.lists)

/-- A detached block stays detached when others move between lists. -/
theorem Retyped.detached (h : Retyped id debt z z') (hd : Detached id debt z p o) :
    Detached id debt z' p o where
  lists := h.lists
  order_le := hd.order_le
  aligned := hd.aligned
  inside := by
    rw [h.moves.zonePages_eq]
    exact hd.inside
  apart := by
    rw [freeSet, h.blocks_eq]
    exact hd.apart

/-- What an operation that hands out the block does. -/
structure HandedOut (id : ℕ) (debt : ℕ → ℤ) (z : Zone) (p o : ℕ) (z' : Zone) : Prop where
  detached : Detached id debt z' p o
  pages : freeSet z' ∪ span p o = freeSet z
  moves : Moves z z' (freeSet z) (-2 ^ o)

/-- Splitting a block that was just taken off its list. -/
theorem handedOut_expand (hm : (p, current) ∈ blocks z)
    (hlow : low ≤ current) (ht : t < migrateTypes)
    (hd : Detached id debt z' p current) (hset : freeSet z' = freeSet z \ span p current)
    (hmoves : Moves z z' {p} (-2 ^ current)) :
    HandedOut id debt z p low (expand z' p low t (current - low)) := by
  have horder : low + (current - low) = current := Nat.add_sub_cancel' hlow
  have hsplit := expand_spec (o := low) (current - low) (by rwa [horder]) ht
  rw [horder] at hsplit
  have hsub : span p current ⊆ freeSet z := span_subset_covered hm
  refine ⟨hsplit.detached, ?_, (hmoves.trans hsplit.moves).mono ?_ (by ring)⟩
  · rw [hsplit.pages, hset, Set.sdiff_union_of_subset hsub]
  · exact Set.union_subset (Set.singleton_subset_iff.mpr (hsub (mem_span_self p current))) hsub

/-- The search of one migrate type for the smallest block. -/
theorem smallestFrom_spec (h : FreeLists id debt z) (ht : t < migrateTypes) (n : ℕ) :
    ∀ {c : ℕ}, o ≤ c → smallestFrom z o t c n = some (p, z') → HandedOut id debt z p o z' := by
  induction n with
  | zero => exact fun _ hs => absurd hs (by simp only [smallestFrom, reduceCtorEq, not_false_eq_true])
  | succ n ih =>
    intro c hc hs
    rw [smallestFrom] at hs
    split at hs
    · exact ih (Nat.le_succ_of_le hc) hs
    · next page rest hlist =>
      simp only [Option.some.injEq, Prod.mk.injEq] at hs
      obtain ⟨rfl, rfl⟩ := hs
      have hm : (page, c) ∈ blocks z := mem_blocks.mpr ⟨t, by rw [hlist]; exact List.mem_cons_self⟩
      have hco := lt_maxOrder (h.wf.order_le page c hm)
      exact handedOut_expand hm hc ht (Detached.takeCounted h hm) (freeSet_takeCounted h hm)
        (moves_takeCounted z page hco)

/-- `__rmqueue_smallest`. -/
theorem rmqueueSmallest_spec (h : FreeLists id debt z) (ht : t < migrateTypes)
    (hr : rmqueueSmallest z o t = some (p, z')) : HandedOut id debt z p o z' :=
  smallestFrom_spec h ht _ (le_refl o) hr

/-- The fallback takes the block it found, after moving others. -/
theorem fallbackTake_spec (h : FreeLists id debt z) (hm : (p, current) ∈ blocks z)
    (ho : o ≤ current) (hs : start < migrateTypes) (ht : t < migrateTypes) :
    HandedOut id debt z p o (fallbackTake z p o start current t) := by
  have hco : current < maxOrder := lt_maxOrder (h.wf.order_le p current hm)
  have hcount := h.addNrFree current (-1)
  have hmem : (p, current) ∈ blocks (addNrFree z current (-1)) := hm
  have hspan : p ∈ zoneSpan (addNrFree z current (-1)) := (hcount.head_mem hmem).1
  have htake : Retyped id (fun k => debt k - if k = current then -1 else 0)
      (addNrFree z current (-1))
      (if takesBlock (addNrFree z current (-1)) current start then
        takeBlock (addNrFree z current (-1)) p start else addNrFree z current (-1)) := by
    split
    · exact takeBlock_spec hcount hspan hs
    · exact Retyped.refl hcount
  simp only [fallbackTake]
  generalize (if takesBlock (addNrFree z current (-1)) current start = true then
    takeBlock (addNrFree z current (-1)) p start else addNrFree z current (-1)) = z2 at htake
  have hmem2 : (p, current) ∈ blocks z2 := by
    rw [htake.blocks_eq]
    exact hmem
  have hdet : Detached id debt (rmvPageOrder (listDel z2 p) p) p current :=
    (Detached.take htake.lists hmem2).debt_eq fun k => by split <;> ring
  have hrange : Retyped id debt (rmvPageOrder (listDel z2 p) p)
      (if pageblockOrder ≤ current then changePageblockRange (rmvPageOrder (listDel z2 p) p) p
        start (2 ^ (current - pageblockOrder)) else rmvPageOrder (listDel z2 p) p) := by
    split
    · exact changePageblockRange_spec _ hs p hdet.lists
    · exact Retyped.refl hdet.lists
  have hmoves := (((moves_addNrFree z hco (-1)).trans htake.moves).trans
    (moves_take z2 p)).trans hrange.moves
  have hset : freeSet (rmvPageOrder (listDel z2 p) p) = freeSet z \ span p current := by
    rw [htake.lists.freeSet_take hmem2, freeSet, htake.blocks_eq]
    rfl
  refine handedOut_expand hm ho ?_ (hrange.detached hdet) ?_ (hmoves.mono ?_ (by ring))
  · split
    · exact hs
    · exact ht
  · rw [freeSet, hrange.blocks_eq]
    exact hset
  · simp only [Set.empty_union, Set.union_empty, subset_rfl]

/-- The fallback over the types of one order. -/
theorem fallbackTypes_spec (h : FreeLists id debt z) (ho : o ≤ current)
    (hs : start < migrateTypes) (types : List ℕ)
    (hr : fallbackTypes z o start current types = some (p, z')) : HandedOut id debt z p o z' := by
  induction types with
  | nil => exact absurd hr (by simp only [fallbackTypes, reduceCtorEq, not_false_eq_true])
  | cons u types ih =>
    rw [fallbackTypes] at hr
    split at hr
    · exact ih hr
    · split at hr
      · exact ih hr
      · next page rest hlist =>
        simp only [Option.some.injEq, Prod.mk.injEq] at hr
        obtain ⟨rfl, rfl⟩ := hr
        have hmem : page ∈ z.freeList current u := by
          rw [hlist]
          exact List.mem_cons_self
        exact fallbackTake_spec h (mem_blocks.mpr ⟨u, hmem⟩) ho hs (h.typed page current u hmem)

/-- `__rmqueue_fallback`, from the largest order downwards. -/
theorem rmqueueFallback_spec (h : FreeLists id debt z) (hs : start < migrateTypes)
    (hr : rmqueueFallback z o start = some (p, z')) : HandedOut id debt z p o z' := by
  rw [rmqueueFallback] at hr
  generalize maxOrder - o = n at hr
  induction n with
  | zero => exact absurd hr (by simp only [fallbackFrom, reduceCtorEq, not_false_eq_true])
  | succ n ih =>
    rw [fallbackFrom] at hr
    split at hr
    · next r hone =>
      rw [hr] at hone
      exact fallbackTypes_spec h (Nat.le_add_right o n) hs _ hone
    · exact ih hr

/-- `__rmqueue` hands out a free block of the requested order. -/
theorem rmqueue_spec (h : FreeLists id debt z) (ht : t < migrateTypes)
    (hr : rmqueue z o t = some (p, z')) : HandedOut id debt z p o z' := by
  rw [rmqueue] at hr
  split at hr
  · next r hone =>
    rw [hr] at hone
    exact rmqueueSmallest_spec h ht hone
  · split at hr
    · cases hr
    · split at hr
      · next r hone =>
        rw [hr] at hone
        exact rmqueueFallback_spec h ht hone
      · exact rmqueueSmallest_spec h (by decide) hr

end BiscuitOS.BuddyRemoval
