import BiscuitOS.BuddyHistory

/-!
# Pageblocks of the fallback

`move_freepages_block` finds the pageblock of a page by the alignment of its
frame number, and the bitmap behind `set_pageblock_migratetype` by the distance
from the first frame of the zone. The scan moves the free blocks of the aligned
pageblock; the two pageblocks have the same pages only in an aligned zone.
-/

namespace BiscuitOS.PageblockMoves

open PageModel BuddyModel DyadicBlock BuddyInvariant BuddyRemoval BuddyHistory

/-- First page of the aligned pageblock around a page. -/
def alignedStart (page : ℕ) : ℕ := page - page % pageblockNrPages

/-- The aligned pageblock around a page. -/
def alignedBlock (page : ℕ) : Set ℕ :=
  Set.Ico (alignedStart page) (alignedStart page + pageblockNrPages)

/-- The part of the aligned pageblock that `move_freepages_block` scans. -/
def scanned (z : Zone) (page : ℕ) : Set ℕ :=
  Set.Ico (if alignedStart page < z.startPfn then page else alignedStart page)
    (alignedStart page + pageblockNrPages)

/-- The free blocks that start among some pages. -/
def startingIn (z : Zone) (S : Set ℕ) : Set (ℕ × ℕ) := {b | b ∈ blocks z ∧ b.1 ∈ S}

/-- Moving the free blocks that start in `S` to the lists of one type. -/
structure BlocksMoved (z z' : Zone) (S : Set ℕ) (migratetype moved : ℕ) : Prop where
  /-- A block that starts in `S` is on the list of that type, and on no other. -/
  target : ∀ p o, (p, o) ∈ blocks z → p ∈ S → ∀ t, p ∈ z'.freeList o t ↔ t = migratetype
  /-- A block that starts elsewhere is on the list it was on. -/
  kept : ∀ p o, p ∉ S → ∀ t, p ∈ z'.freeList o t ↔ p ∈ z.freeList o t
  /-- The result is the number of pages of the blocks moved. -/
  counted : moved = (covered (startingIn z S)).ncard

/-- The type that `set_pageblock_migratetype` stores. -/
def storedType (z : Zone) (migratetype : ℕ) : ℕ :=
  if z.mobilityDisabled then migrateUnmovable else migratetype

/-- The pages of the zone that another type is read for after `set_pageblock_migratetype`. -/
def changedPages (z : Zone) (page migratetype : ℕ) : Set ℕ :=
  {q | q ∈ zoneSpan z ∧
    getPageblockMigratetype (setPageblockMigratetype z page migratetype) q ≠
      getPageblockMigratetype z q}

/-- The scan and the type agree about the pageblock of a page. -/
structure Agree (z : Zone) (page migratetype : ℕ) : Prop where
  /-- Nothing is moved, or the free blocks that start in the part scanned. -/
  scan : moveFreepagesBlock z page migratetype = (z, 0) ∨
    BlocksMoved z (moveFreepagesBlock z page migratetype).1 (scanned z page) migratetype
      (moveFreepagesBlock z page migratetype).2
  /-- The result is zero only if the aligned pageblock is not wholly inside the zone. -/
  nothing : (moveFreepagesBlock z page migratetype).2 = 0 → ¬ alignedBlock page ⊆ zoneSpan z
  /-- The counters stay. -/
  nrFree_eq : (moveFreepagesBlock z page migratetype).1.nrFree = z.nrFree
  /-- Whatever other types the pageblocks had, those of the aligned pageblock are changed. -/
  changed : ∀ types : ℕ → ℕ, (∀ i, types i ≠ storedType z migratetype) →
    changedPages { (moveFreepagesBlock z page migratetype).1 with blockType := types } page
      migratetype = alignedBlock page ∩ zoneSpan z

variable {z z' : Zone} {p q o k t u id page last n : ℕ} {debt : ℕ → ℤ}

/-- The lists after one block was moved. -/
theorem mem_moved (h : FreeLists id debt z) :
    q ∈ (listAdd (listDel z p) p o t).freeList k u ↔
      (q = p ∧ k = o ∧ u = t) ∨ (q ≠ p ∧ q ∈ z.freeList k u) := by
  have hdel : q ∈ (listDel z p).freeList k u ↔ q ≠ p ∧ q ∈ z.freeList k u :=
    h.separate.mem_unlink (k := (k, u))
  rw [listAdd, mem_setList (List.Perm.refl _), hdel]

/-- No block starts inside another one. -/
theorem start_outside (h : FreeLists id debt z) (hp : (p, o) ∈ blocks z) (hq : (q, k) ∈ blocks z)
    (hlt : p < q) : p + 2 ^ o ≤ q := by
  by_contra hin
  have hne : (p, o) ≠ (q, k) := fun he => absurd (Prod.mk.inj he).1 hlt.ne
  have hboth := h.wf.apart (p, o) hp (q, k) hq hne
  exact Set.disjoint_left.mp hboth (Set.mem_Ico.mpr ⟨hlt.le, Nat.lt_of_not_le hin⟩)
    (mem_span_self q k)

/-- The pages of free blocks are finitely many. -/
theorem finite_covered (h : FreeLists id debt z) (S : Set ℕ) :
    (covered (startingIn z S)).Finite := by
  refine (Set.finite_Ico z.startPfn (z.startPfn + z.spannedPages)).subset fun a ha => ?_
  obtain ⟨b, hb, hab⟩ := mem_covered.mp ha
  exact (h.inside (mem_covered.mpr ⟨b, hb.1, hab⟩)).1

/-- The blocks that start from a block on are that block and those behind it. -/
theorem startingIn_split (h : FreeLists id debt z) (hp : (p, o) ∈ blocks z) (hle : p ≤ last) :
    startingIn z (Set.Ico p (last + 1)) =
      insert (p, o) (startingIn z (Set.Ico (p + 2 ^ o) (last + 1))) := by
  have hpos := Nat.two_pow_pos o
  ext ⟨q, k⟩
  simp only [startingIn, Set.mem_ofPred_eq, Set.mem_insert_iff, Set.mem_Ico]
  constructor
  · rintro ⟨hq, hlow, hhigh⟩
    rcases Nat.eq_or_lt_of_le hlow with rfl | hlt
    · left
      rw [h.wf.start_unique hq hp]
    · exact Or.inr ⟨hq, start_outside h hp hq hlt, hhigh⟩
  · rintro (he | ⟨hq, hlow, hhigh⟩)
    · obtain ⟨rfl, rfl⟩ := Prod.mk.inj he
      exact ⟨hp, le_rfl, by omega⟩
    · exact ⟨hq, by omega, hhigh⟩

/-- The pages of a block and of those behind it. -/
theorem ncard_split (h : FreeLists id debt z) (hp : (p, o) ∈ blocks z) (hle : p ≤ last) :
    (covered (startingIn z (Set.Ico p (last + 1)))).ncard =
      2 ^ o + (covered (startingIn z (Set.Ico (p + 2 ^ o) (last + 1)))).ncard := by
  have hcover : covered (insert (p, o) (startingIn z (Set.Ico (p + 2 ^ o) (last + 1)))) =
      span p o ∪ covered (startingIn z (Set.Ico (p + 2 ^ o) (last + 1))) := by
    rw [covered_put, Set.union_comm]
  have hapart : Disjoint (span p o) (covered (startingIn z (Set.Ico (p + 2 ^ o) (last + 1)))) := by
    rw [Set.disjoint_left]
    intro a ha hc
    obtain ⟨b, hb, hab⟩ := mem_covered.mp hc
    have hlow := hb.2.1
    have hfirst := hab.1
    have hend := ha.2
    omega
  have hspan : (span p o).ncard = 2 ^ o := by
    rw [span, ← Finset.coe_Ico, Set.ncard_coe_finset, Nat.card_Ico, Nat.add_sub_cancel_left]
  rw [startingIn_split h hp hle, hcover,
    Set.ncard_union_eq hapart (Set.finite_Ico _ _) (finite_covered h _), hspan]

/-- A page that starts no block is passed over. -/
theorem startingIn_pass (hp : ∀ o, (p, o) ∉ blocks z) :
    startingIn z (Set.Ico p (last + 1)) = startingIn z (Set.Ico (p + 1) (last + 1)) := by
  ext ⟨q, k⟩
  simp only [startingIn, Set.mem_ofPred_eq, Set.mem_Ico]
  constructor
  · rintro ⟨hq, hlow, hhigh⟩
    have hne : p ≠ q := by
      rintro rfl
      exact hp k hq
    exact ⟨hq, by omega, hhigh⟩
  · rintro ⟨hq, hlow, hhigh⟩
    exact ⟨hq, by omega, hhigh⟩

/-- Nothing is left to scan. -/
theorem blocksMoved_none (h : last < p) : BlocksMoved z z (Set.Ico p (last + 1)) t 0 := by
  have hnone : Set.Ico p (last + 1) = ∅ := Set.Ico_eq_empty (by omega)
  have hcov : covered (startingIn z ∅) = ∅ :=
    Set.eq_empty_of_forall_notMem fun a ha => by
      obtain ⟨b, hb, -⟩ := mem_covered.mp ha
      exact hb.2
  refine ⟨fun q k _ hq => ?_, fun _ _ _ _ => Iff.rfl, ?_⟩
  · rw [hnone] at hq
    exact absurd hq (Set.notMem_empty q)
  · rw [hnone, hcov, Set.ncard_empty]

/-- The number of pages does not depend on what was counted before. -/
theorem moveFrom_count (n : ℕ) : ∀ (z : Zone) (p moved : ℕ),
    moveFrom z p last t moved n =
      ((moveFrom z p last t 0 n).1, moved + (moveFrom z p last t 0 n).2) := by
  induction n with
  | zero => exact fun _ _ _ => rfl
  | succ n ih =>
    intro z p moved
    simp only [moveFrom]
    by_cases hle : p ≤ last
    · rw [if_pos hle, if_pos hle]
      by_cases hb : z.pfnValid p ∧ pageBuddy (z.pages p)
      · rw [if_pos hb, if_pos hb, ih _ _ (moved + 2 ^ (z.pages p).word),
          ih _ _ (0 + 2 ^ (z.pages p).word), Nat.zero_add, Nat.add_assoc]
      · rw [if_neg hb, if_neg hb, ih]
    · rw [if_neg hle, if_neg hle]
      rfl

/-- The scan up to a page of the zone moves the blocks that start in its way. -/
theorem moveFrom_moves (n : ℕ) (ht : t < migrateTypes) : ∀ {z : Zone} {p : ℕ},
    FreeLists id debt z → z.startPfn ≤ p → last < z.startPfn + z.spannedPages →
    last + 1 ≤ p + n →
    BlocksMoved z (moveFrom z p last t 0 n).1 (Set.Ico p (last + 1)) t
      (moveFrom z p last t 0 n).2 := by
  induction n with
  | zero => exact fun _ _ _ hfuel => blocksMoved_none (by omega)
  | succ n ih =>
    intro z p h hp hlast hfuel
    simp only [moveFrom]
    by_cases hle : p ≤ last
    · rw [if_pos hle]
      have hspan : p ∈ zoneSpan z := Set.mem_Ico.mpr ⟨hp, by omega⟩
      by_cases hb : z.pfnValid p ∧ pageBuddy (z.pages p)
      · rw [if_pos hb, moveFrom_count]
        have hm := h.listed p (Or.inl hspan) hb.2
        generalize (z.pages p).word = o at hm ⊢
        have hpos := Nat.two_pow_pos o
        obtain ⟨hlists, hblocks⟩ := h.retype hm ht
        have hrest := ih (z := listAdd (listDel z p) p o t) (p := p + 2 ^ o) hlists
          (Nat.le_add_right_of_le hp) hlast (by omega)
        have hstart : ∀ S, startingIn (listAdd (listDel z p) p o t) S = startingIn z S := fun S => by
          rw [startingIn, startingIn, hblocks]
        refine ⟨fun q k hq hin u => ?_, fun q k hout u => ?_, ?_⟩
        · by_cases hqp : q = p
          · have hko : k = o := h.wf.start_unique (hqp ▸ hq) hm
            rw [hrest.kept q k (fun hc => by have := hc.1; omega) u, mem_moved h, hqp, hko]
            simp
          · have hbehind : p + 2 ^ o ≤ q :=
              start_outside h hm hq (by have := hin.1; omega)
            exact hrest.target q k (by rw [hblocks]; exact hq) ⟨hbehind, hin.2⟩ u
        · have hqp : q ≠ p := by
            rintro rfl
            exact hout ⟨le_rfl, by omega⟩
          rw [hrest.kept q k (fun hc => hout ⟨by have := hc.1; omega, hc.2⟩) u, mem_moved h]
          simp only [hqp, false_and, false_or, ne_eq, not_false_eq_true, true_and]
        · rw [ncard_split h hm hle, hrest.counted, hstart, Nat.zero_add]
      · rw [if_neg hb]
        have hnone : ∀ o, (p, o) ∉ blocks z := fun o hm =>
          hb ⟨(h.head_mem hm).2.1, (h.marked p o hm).1⟩
        have hrest := ih (z := z) (p := p + 1) h (by omega) hlast (by omega)
        refine ⟨fun q k hq hin u => ?_, fun q k hout u => ?_, ?_⟩
        · have hqp : q ≠ p := by
            rintro rfl
            exact hnone k hq
          exact hrest.target q k hq ⟨by have := hin.1; omega, hin.2⟩ u
        · exact hrest.kept q k (fun hc => hout ⟨by have := hc.1; omega, hc.2⟩) u
        · rw [startingIn_pass hnone]
          exact hrest.counted
    · rw [if_neg hle]
      exact blocksMoved_none (Nat.lt_of_not_le hle)

/-- The scan assigns free lists only. -/
theorem moveFrom_freeList (n : ℕ) : ∀ (z : Zone) (p moved : ℕ),
    ∃ lists, (moveFrom z p last t moved n).1 = { z with freeList := lists } := by
  induction n with
  | zero => exact fun z _ _ => ⟨z.freeList, rfl⟩
  | succ n ih =>
    intro z p moved
    simp only [moveFrom]
    by_cases hle : p ≤ last
    · rw [if_pos hle]
      by_cases hb : z.pfnValid p ∧ pageBuddy (z.pages p)
      · rw [if_pos hb]
        obtain ⟨lists, hrest⟩ := ih (listAdd (listDel z p) p (z.pages p).word t)
          (p + 2 ^ (z.pages p).word) (moved + 2 ^ (z.pages p).word)
        exact ⟨lists, hrest⟩
      · rw [if_neg hb]
        exact ih z (p + 1) moved
    · rw [if_neg hle]
      exact ⟨z.freeList, rfl⟩

/-- `move_freepages_block` assigns free lists only. -/
theorem moveFreepagesBlock_freeList (z : Zone) (page t : ℕ) :
    ∃ lists, (moveFreepagesBlock z page t).1 = { z with freeList := lists } := by
  simp only [moveFreepagesBlock]
  split
  · exact ⟨z.freeList, rfl⟩
  · exact moveFrom_freeList _ z _ 0

/-- The aligned pageblock starts at a multiple of its size. -/
theorem alignedStart_eq (page : ℕ) : alignedStart page = page / 1024 * 1024 := by
  have hsize : pageblockNrPages = 1024 := rfl
  rw [alignedStart, hsize]
  omega

/-- A pageblock that ends behind the zone is left alone; otherwise the part scanned is. -/
theorem moveFreepagesBlock_moves (h : FreeLists id debt z) (hp : p ∈ zoneSpan z)
    (ht : t < migrateTypes) :
    (moveFreepagesBlock z p t = (z, 0) ∧ ¬ alignedBlock p ⊆ zoneSpan z) ∨
      BlocksMoved z (moveFreepagesBlock z p t).1 (scanned z p) t (moveFreepagesBlock z p t).2 := by
  have hsize : pageblockNrPages = 1024 := rfl
  have hspan := Set.mem_Ico.mp hp
  by_cases hend : z.startPfn + z.spannedPages ≤ alignedStart p + pageblockNrPages - 1
  · left
    refine ⟨if_pos hend, fun hsub => ?_⟩
    have hlast := hsub (show alignedStart p + pageblockNrPages - 1 ∈ alignedBlock p from
      Set.mem_Ico.mpr ⟨by omega, by omega⟩)
    exact absurd (Set.mem_Ico.mp hlast).2 (Nat.not_lt.mpr hend)
  · right
    have hmove : moveFreepagesBlock z p t = moveFreepages z
        (if alignedStart p < z.startPfn then p else alignedStart p)
        (alignedStart p + pageblockNrPages - 1) t := if_neg hend
    have hlast : alignedStart p + pageblockNrPages - 1 + 1 = alignedStart p + pageblockNrPages := by
      omega
    have hfirst : z.startPfn ≤ if alignedStart p < z.startPfn then p else alignedStart p := by
      split
      · exact hspan.1
      · next hstart => exact Nat.le_of_not_lt hstart
    rw [hmove, moveFreepages, scanned, ← hlast]
    exact moveFrom_moves _ ht h hfirst (Nat.lt_of_not_le hend) (by omega)

/-- The block of a free page starts in the aligned pageblock of the page. -/
theorem start_mem_alignedBlock (h : FreeLists id debt z) (hb : (q, o) ∈ blocks z)
    (hp : p ∈ span q o) : q ∈ alignedBlock p := by
  have hin := Set.mem_Ico.mp hp
  have hdvd : 2 ^ o ∣ alignedStart p := by
    rw [alignedStart_eq]
    exact (Nat.pow_dvd_pow 2 (h.wf.order_le q o hb)).trans (Nat.dvd_mul_left _ _)
  have hsize : pageblockNrPages = 1024 := rfl
  have hstart := alignedStart_eq p
  refine Set.mem_Ico.mpr ⟨?_, by omega⟩
  by_contra hlt
  obtain ⟨m, hm⟩ := hdvd
  obtain ⟨k, hk⟩ := h.wf.aligned q o hb
  have hkm : k < m := by
    refine Nat.lt_of_mul_lt_mul_left (a := 2 ^ o) ?_
    omega
  have hstep : 2 ^ o * (k + 1) ≤ 2 ^ o * m := Nat.mul_le_mul_left _ hkm
  rw [Nat.mul_succ] at hstep
  omega

/-- In a pageblock wholly inside the zone, at least the block of the page is moved. -/
theorem moveFreepagesBlock_pos (h : FreeLists id debt z) (hp : p ∈ freeSet z)
    (ht : t < migrateTypes) (hzero : (moveFreepagesBlock z p t).2 = 0) :
    ¬ alignedBlock p ⊆ zoneSpan z := by
  intro hsub
  rcases moveFreepagesBlock_moves h (h.inside hp).1 ht with ⟨-, hnot⟩ | hmoved
  · exact hnot hsub
  obtain ⟨⟨q, o⟩, hb, hpq⟩ := mem_covered.mp hp
  have hq := start_mem_alignedBlock h hb hpq
  have hfirst := (Set.mem_Ico.mp (hsub (show alignedStart p ∈ alignedBlock p from
    Set.mem_Ico.mpr ⟨le_rfl, Nat.lt_add_of_pos_right (by decide)⟩))).1
  have hscan : scanned z p = alignedBlock p := by
    rw [scanned, if_neg (Nat.not_lt.mpr hfirst), alignedBlock]
  have hcount := hmoved.counted
  rw [hzero, hscan, eq_comm, Set.ncard_eq_zero (finite_covered h _)] at hcount
  exact Set.notMem_empty p (hcount ▸ mem_covered.mpr ⟨(q, o), ⟨hb, hq⟩, hpq⟩)

/-- The type stored is one of the types. -/
theorem storedType_lt (z : Zone) (ht : t < migrateTypes) : storedType z t < migrateTypes := by
  rw [storedType]
  split
  · decide
  · exact ht

/-- The type is changed of the pages that are as many whole pageblocks behind the first page of the
zone as the page. -/
theorem changedPages_eq (z : Zone) (page : ℕ) (ht : t < migrateTypes)
    (htypes : ∀ i, z.blockType i ≠ storedType z t) :
    changedPages z page t =
      {q | q ∈ zoneSpan z ∧ (q - z.startPfn) / 1024 = (page - z.startPfn) / 1024} := by
  have hlt := storedType_lt z ht
  have hstored : storedType z t % 8 = storedType z t :=
    Nat.mod_eq_of_lt (hlt.trans (by decide))
  ext q
  simp only [changedPages, Set.mem_ofPred_eq]
  refine and_congr_right fun _ => ?_
  have hset : getPageblockMigratetype (setPageblockMigratetype z page t) q =
      if (q - z.startPfn) / 1024 = (page - z.startPfn) / 1024 then storedType z t % 8
      else getPageblockMigratetype z q := Function.update_apply _ _ _ _
  rw [hset, hstored]
  split
  · next hsame => exact iff_of_true (Ne.symm (htypes _)) hsame
  · next hother => exact iff_of_false (fun hne => hne rfl) hother

/-- The scan does not matter to the type. -/
theorem changedPages_moved (z : Zone) (page : ℕ) (ht : t < migrateTypes) (types : ℕ → ℕ)
    (htypes : ∀ i, types i ≠ storedType z t) :
    changedPages { (moveFreepagesBlock z page t).1 with blockType := types } page t =
      {q | q ∈ zoneSpan z ∧ (q - z.startPfn) / 1024 = (page - z.startPfn) / 1024} := by
  obtain ⟨lists, hlists⟩ := moveFreepagesBlock_freeList z page t
  rw [hlists]
  exact changedPages_eq { z with freeList := lists, blockType := types } page ht htypes

/-- Both pageblocks have the same pages of the zone exactly in an aligned zone, and in one that is
wholly inside the aligned pageblock. -/
theorem pageblocks_eq_iff (z : Zone) (hp : p ∈ zoneSpan z) :
    {q | q ∈ zoneSpan z ∧ (q - z.startPfn) / 1024 = (p - z.startPfn) / 1024} =
        alignedBlock p ∩ zoneSpan z ↔
      z.startPfn % pageblockNrPages = 0 ∨ zoneSpan z ⊆ alignedBlock p := by
  have hspan := Set.mem_Ico.mp hp
  have hstart := alignedStart_eq p
  have hsize : pageblockNrPages = 1024 := rfl
  simp only [Set.ext_iff, Set.mem_ofPred_eq, Set.mem_inter_iff, alignedBlock, zoneSpan, Set.mem_Ico,
    Set.subset_def, hstart, hsize]
  generalize z.startPfn = first at *
  generalize z.spannedPages = pages at *
  constructor
  · intro hall
    have hblock := hall (first + (p - first) / 1024 * 1024)
    have hbefore := hall (first + (p - first) / 1024 * 1024 - 1)
    have hbehind := hall (p / 1024 * 1024 + 1024)
    by_cases halign : first % 1024 = 0
    · exact Or.inl halign
    · right
      intro q hq
      omega
  · rintro (halign | hsub) q
    · omega
    · have hq := hsub q
      have hlast := hsub (first + pages - 1)
      have hfirst := hsub first
      omega

/-- The scan of `move_freepages_block` and `set_pageblock_migratetype` are about the same pageblock
exactly when the zone starts at a multiple of the pageblock size or lies wholly inside the aligned
pageblock. -/
theorem agree_iff (h : FreeLists id debt z) (hp : page ∈ freeSet z) (ht : t < migrateTypes) :
    Agree z page t ↔
      z.startPfn % pageblockNrPages = 0 ∨ zoneSpan z ⊆ alignedBlock page := by
  have hspan := (h.inside hp).1
  rw [← pageblocks_eq_iff z hspan]
  constructor
  · intro ha
    have hother : ∀ i : ℕ, (fun _ => storedType z t + 1) i ≠ storedType z t :=
      fun _ => Nat.succ_ne_self _
    rw [← changedPages_moved z page ht _ hother]
    exact ha.changed _ hother
  · intro hsame
    refine ⟨?_, moveFreepagesBlock_pos h hp ht, ?_, fun types htypes => ?_⟩
    · exact (moveFreepagesBlock_moves h hspan ht).imp And.left fun hm => hm
    · obtain ⟨lists, hlists⟩ := moveFreepagesBlock_freeList z page t
      rw [hlists]
    · rw [changedPages_moved z page ht types htypes, hsame]

/-- A zone of two pageblocks' length that starts in the middle of one, before anything is freed. -/
def shifted : Zone where
  startPfn := 1536
  spannedPages := 2048
  pages := fun _ => ⟨0, 0, -1, 0, 0, 0⟩
  freeList := fun _ _ => []
  nrFree := fun _ => 0
  blockType := fun _ => migrateMovable
  nrFreePages := 0
  pfnValid := fun _ => true
  mobilityDisabled := false

/-- A zone of the same length that starts with a pageblock, before anything is freed. -/
def wholeBlocks : Zone := { shifted with startPfn := 2048 }

/-- One page is freed in a zone before anything else is. -/
theorem freed_one {z : Zone} (h : Untouched 0 z) (hp : p ∈ zonePages 0 z) :
    FreeLists 0 0 (freeOnePage z p 0 migrateMovable) ∧
      p ∈ freeSet (freeOnePage z p 0 migrateMovable) := by
  have hone : span p 0 ⊆ zonePages 0 z := fun q hq => by
    have he : q = p := by
      have hmem := Set.mem_Ico.mp hq
      omega
    rw [he]
    exact hp
  have hfreed := BuddyBlock.freeOnePage_spec (t := migrateMovable)
    ⟨h.lists, Nat.zero_le _, one_dvd _, hone, h.freeSet_eq ▸ Set.empty_disjoint _⟩ (by decide)
  exact ⟨hfreed.lists, hfreed.pages ▸ Set.mem_union_right _ (mem_span_self p 0)⟩

/-- The zone that starts in the middle of a pageblock, untouched. -/
theorem shifted_untouched : Untouched 0 shifted :=
  ⟨fun _ _ => rfl, fun _ => rfl, fun _ _ => rfl⟩

/-- The zone that starts with a pageblock, untouched. -/
theorem wholeBlocks_untouched : Untouched 0 wholeBlocks :=
  ⟨fun _ _ => rfl, fun _ => rfl, fun _ _ => rfl⟩

/-- Page 2048 of the zone that starts with it. -/
theorem agree_iff_wholeBlocks :
    Agree (freeOnePage wholeBlocks 2048 0 migrateMovable) 2048 migrateReclaimable := by
  obtain ⟨hlists, hfree⟩ := freed_one (p := 2048) wholeBlocks_untouched
    ⟨Set.mem_Ico.mpr ⟨by decide, by decide⟩, rfl, by decide⟩
  exact (agree_iff hlists hfree (by decide)).mpr (Or.inl (by decide))

/-- Page 2048 of the zone that starts at 1536: its aligned pageblock is [2048, 3072), and the type
of [1536, 2560) is changed. -/
theorem shifted_counterexample :
    FreeLists 0 0 (freeOnePage shifted 2048 0 migrateMovable) ∧
      2048 ∈ freeSet (freeOnePage shifted 2048 0 migrateMovable) ∧
      ¬ Agree (freeOnePage shifted 2048 0 migrateMovable) 2048 migrateReclaimable := by
  obtain ⟨hlists, hfree⟩ := freed_one (p := 2048) shifted_untouched
    ⟨Set.mem_Ico.mpr ⟨by decide, by decide⟩, rfl, by decide⟩
  refine ⟨hlists, hfree, fun ha => ?_⟩
  have hchanged := ha.changed (fun _ => migrateMovable) (fun _ => by decide)
  rw [changedPages_moved _ _ (by decide) _ (fun _ => by decide)] at hchanged
  have hin : 1536 ∈ alignedBlock 2048 ∩ zoneSpan (freeOnePage shifted 2048 0 migrateMovable) :=
    hchanged ▸ ⟨Set.mem_Ico.mpr ⟨by decide, by decide⟩, by decide⟩
  exact absurd (Set.mem_Ico.mp hin.1).1 (by decide)

end BiscuitOS.PageblockMoves
