import BiscuitOS.BuddyRemoval
import BiscuitOS.PcpModel

/-!
# The invariant of the per-cpu page lists

Pages of the zone are free, on the pageset or held. The invariant is stated
relative to what the two counters still miss, so that it holds inside the
loops too. Owners and the checks of the allocator change descriptors of held
pages only.
-/

namespace BiscuitOS.PcpInvariant

open PageModel BuddyModel DyadicBlock ListTable BuddyInvariant BuddyBlock BuddyRemoval PcpModel

/-- Descriptors change on `S` only, keep their zone numbers and gain no mark. -/
structure Keeps (pages pages' : Pages) (S : Set ℕ) : Prop where
  same : ∀ q, q ∉ S → pages' q = pages q
  zoneId : ∀ q, pageZoneId (pages' q) = pageZoneId (pages q)
  marks : ∀ q, pageBuddy (pages' q) = true → pageBuddy (pages q) = true

variable {pages pages' pages'' : Pages} {S S' : Set ℕ} {z z' : Zone} {s s' : PcpZone}
  {p o t id page order : ℕ} {c f v : ℤ} {debt : ℕ → ℤ}

/-- No descriptor changes. -/
theorem Keeps.refl (pages : Pages) (S : Set ℕ) : Keeps pages pages S :=
  ⟨fun _ _ => rfl, fun _ => rfl, fun _ h => h⟩

/-- One change after another. -/
theorem Keeps.trans (h : Keeps pages pages' S) (h' : Keeps pages' pages'' S) :
    Keeps pages pages'' S :=
  ⟨fun q hq => (h'.same q hq).trans (h.same q hq), fun q => (h'.zoneId q).trans (h.zoneId q),
    fun q hq => h.marks q (h'.marks q hq)⟩

/-- Assigning one descriptor. -/
theorem keeps_setPage {d : Page} (hz : pageZoneId d = pageZoneId (pages page))
    (hm : pageBuddy d = true → pageBuddy (pages page) = true) (hS : page ∈ S) :
    Keeps pages (setPage pages page d) S where
  same q hq := setPage_other _ (ne_of_mem_of_not_mem hS hq).symm _
  zoneId q := by
    by_cases hq : q = page
    · rw [hq, setPage_self, hz]
    · rw [setPage_other _ hq]
  marks q := by
    by_cases hq : q = page
    · rw [hq, setPage_self]
      exact hm
    · rw [setPage_other _ hq]
      exact id

/-- Clearing flags below the zone number keeps the zone number. -/
theorem zoneId_clear {flags mask : BitVec 64} (hm : ~~~mask >>> 30 &&& 3#64 = 3#64) :
    (flags &&& ~~~mask) >>> 30 &&& 3#64 = flags >>> 30 &&& 3#64 := by
  rw [BitVec.ushiftRight_and_distrib, BitVec.and_assoc, hm]

/-- `__TestClearPageMlocked`. -/
theorem keeps_clearPageMlocked (hS : page ∈ S) : Keeps z.pages (clearPageMlocked z page).pages S :=
  keeps_setPage (congrArg BitVec.toNat (zoneId_clear (by decide))) id hS

/-- `free_pages_check` keeps the zone number and sets no mark. -/
theorem freePagesCheck_keeps (d : Page) : pageZoneId (freePagesCheck d).2 = pageZoneId d ∧
    (pageBuddy (freePagesCheck d).2 = true → pageBuddy d = true) := by
  rw [freePagesCheck]
  split
  · refine ⟨rfl, fun h => ?_⟩
    simp only [pageBuddy, Int.reduceNeg, Int.reduceEq, decide_false, Bool.false_eq_true] at h
  · exact ⟨congrArg BitVec.toNat (zoneId_clear (by decide)), id⟩

/-- The check of a block touches its descriptors only. -/
theorem keeps_checkFrom (n : ℕ) : ∀ {pages : Pages} {page : ℕ}, Set.Ico page (page + n) ⊆ S →
    Keeps pages (checkFrom pages page n).2 S := by
  induction n with
  | zero => exact fun _ => Keeps.refl _ _
  | succ n ih =>
    intro pages page hS
    obtain ⟨hz, hm⟩ := freePagesCheck_keeps (pages page)
    have hpage : page ∈ S := hS (Set.mem_Ico.mpr ⟨le_refl page, by omega⟩)
    refine (keeps_setPage hz hm hpage).trans (ih ((Set.Ico_subset_Ico ?_ ?_).trans hS)) <;> omega

/-- `free_pages_prepare` touches the descriptors of the block only. -/
theorem keeps_freePagesPrepare (hS : span page order ⊆ S) :
    Keeps pages (freePagesPrepare pages page order).2 S := by
  simp only [freePagesPrepare]
  split
  · have hanon : Keeps pages (setPage pages page { pages page with mapping := 0 }) S :=
      keeps_setPage rfl id (hS (mem_span_self page order))
    exact hanon.trans (keeps_checkFrom _ hS)
  · exact keeps_checkFrom _ hS

/-- `prep_new_page` touches the descriptors of the block only. -/
theorem keeps_prepNewPage (gfp : GfpFlags) (hS : span page order ⊆ S) :
    Keeps pages (prepNewPage pages page order gfp).2 S := by
  cases h : (prepNewPage pages page order gfp).1 with
  | true =>
    rw [prepNewPage_rejected h]
    exact Keeps.refl _ _
  | false =>
    refine ⟨fun q hq => ?_, fun q => ?_, fun q => ?_⟩
    · obtain ⟨w, he, hw⟩ := prepNewPage_eq h q
      have hout : q ∉ span page order := fun hc => hq (hS hc)
      simp only [span, Set.mem_Ico, not_and_or, not_le, not_lt] at hout
      have hne : q ≠ page := fun hc => hq (hS (hc ▸ mem_span_self page order))
      rw [he, hw hout, if_neg hne]
    · obtain ⟨w, he, -⟩ := prepNewPage_eq h q
      rw [he, pageZoneId, pageZoneId]
    · obtain ⟨w, he, -⟩ := prepNewPage_eq h q
      rw [he, pageBuddy, pageBuddy]
      exact id

/-- The pages of the zone stay. -/
theorem Keeps.zonePages_eq (h : Keeps z.pages pages' S) :
    zonePages id { z with pages := pages' } = zonePages id z := by
  ext q
  simp only [zonePages, zoneSpan, Set.mem_ofPred_eq, h.zoneId]

/-- The free lists do not depend on the descriptors of pages that are not free. -/
theorem Keeps.freeLists (hk : Keeps z.pages pages' S) (h : FreeLists id debt z)
    (hS : Disjoint (freeSet z) S) : FreeLists id debt { z with pages := pages' } where
  wf := h.wf
  typed := h.typed
  separate := h.separate
  marked q o hq := by
    have hfree : q ∈ freeSet z := span_subset_covered hq (mem_span_self q o)
    dsimp only
    rw [hk.same q (Set.disjoint_left.mp hS hfree)]
    exact h.marked q o hq
  listed q hq hb := by
    dsimp only at hq hb ⊢
    rw [hk.zoneId] at hq
    have hold := h.listed q hq (hk.marks q hb)
    have hfree : q ∈ freeSet z := span_subset_covered hold (mem_span_self q _)
    rw [hk.same q (Set.disjoint_left.mp hS hfree)]
    exact hold
  inside := by
    rw [hk.zonePages_eq]
    exact h.inside
  counted := h.counted

/-- The pages of the zone that are on no list. -/
def Held (id : ℕ) (s : PcpZone) : Set ℕ :=
  zonePages id s.zone \ (freeSet s.zone ∪ members s.pcp.lists)

/-- The lists are consistent, `pcp->count` exceeds the lengths of the lists by `c`, and
`NR_FREE_PAGES` exceeds the pages that the free lists account for by `f`. -/
structure PcpInv (id : ℕ) (c f : ℤ) (s : PcpZone) : Prop where
  lists : FreeLists id 0 s.zone
  types : ∀ i, s.zone.blockType i < migrateTypes
  separate : Separate s.pcp.lists
  typed : ∀ p t, p ∈ s.pcp.lists t → t < migratePcptypes
  inside : members s.pcp.lists ⊆ zonePages id s.zone
  apart : Disjoint (freeSet s.zone) (members s.pcp.lists)
  ownType : ∀ p ∈ members s.pcp.lists, (s.zone.pages p).word < migrateTypes
  count : s.pcp.count = total (Finset.range migratePcptypes) s.pcp.lists + c
  freePages : s.zone.nrFreePages = freePages s.zone + f
  batch : 1 ≤ s.pcp.batch ∧ s.pcp.batch ≤ max 1 s.pcp.high ∧ s.pcp.batch < 2 ^ 31

/-- Held pages are not free. -/
theorem held_not_free : Disjoint (freeSet s.zone) (Held id s) :=
  Set.disjoint_right.mpr fun _ hq hc => hq.2 (Or.inl hc)

/-- The invariant depends on what is missing only by value. -/
theorem PcpInv.congr {c' f' : ℤ} (h : PcpInv id c f s) (hc : c = c') (hf : f = f') :
    PcpInv id c' f' s := by
  rwa [← hc, ← hf]

/-- Changing descriptors of held pages. -/
theorem PcpInv.keeps (h : PcpInv id c f s) (hk : Keeps s.zone.pages pages' (Held id s)) :
    PcpInv id c f { s with zone := { s.zone with pages := pages' } } ∧
      Held id { s with zone := { s.zone with pages := pages' } } = Held id s := by
  have hpages : zonePages id { s.zone with pages := pages' } = zonePages id s.zone :=
    hk.zonePages_eq
  refine ⟨⟨hk.freeLists h.lists held_not_free, h.types, h.separate, h.typed, ?_, h.apart, ?_,
    h.count, h.freePages, h.batch⟩, ?_⟩
  · dsimp only
    rw [hpages]
    exact h.inside
  · intro q hq
    dsimp only at hq ⊢
    rw [hk.same q (fun hc => hc.2 (Or.inr hq))]
    exact h.ownType q hq
  · rw [Held, Held]
    dsimp only
    rw [hpages]
    rfl

/-- Changing `pcp->count`. -/
theorem PcpInv.addCount (h : PcpInv id c f s) (v : ℤ) :
    PcpInv id (c + v) f (PcpModel.addCount s v) :=
  ⟨h.lists, h.types, h.separate, h.typed, h.inside, h.apart, h.ownType,
    by rw [PcpModel.addCount, h.count, add_assoc], h.freePages, h.batch⟩

/-- Changing `NR_FREE_PAGES`. -/
theorem PcpInv.modFreePages (h : PcpInv id c f s) (v : ℤ) :
    PcpInv id c (f + v) { s with zone := PcpModel.modFreePages s.zone v } :=
  ⟨⟨h.lists.wf, h.lists.typed, h.lists.separate, h.lists.marked, h.lists.listed, h.lists.inside,
      h.lists.counted⟩,
    h.types, h.separate, h.typed, h.inside, h.apart, h.ownType, h.count,
    by
      have hn : (PcpModel.modFreePages s.zone v).nrFreePages = s.zone.nrFreePages + v := rfl
      rw [hn, h.freePages, add_assoc]
      rfl,
    h.batch⟩

/-- Freeing a held block. -/
theorem PcpInv.freeHeld (h : PcpInv id c f s) (ho : o < maxOrder) (ht : t < migrateTypes)
    (hal : 2 ^ o ∣ p) (hS : span p o ⊆ Held id s) :
    PcpInv id c (f - 2 ^ o) { s with zone := freeOnePage s.zone p o t } := by
  have hdet : Detached id 0 s.zone p o :=
    ⟨h.lists, Nat.le_of_lt_succ ho, hal, fun q hq => (hS hq).1, held_not_free.mono_right hS⟩
  have hfree := freeOnePage_spec hdet ht
  have hout : Disjoint (freeSet s.zone ∪ span p o) (members s.pcp.lists) :=
    Set.disjoint_union_left.mpr
      ⟨h.apart, Set.disjoint_left.mpr fun q hq hc => (hS hq).2 (Or.inr hc)⟩
  refine ⟨hfree.lists, hfree.moves.types h.types, h.separate, h.typed, ?_, ?_, ?_, h.count, ?_,
    h.batch⟩
  · dsimp only
    rw [hfree.moves.zonePages_eq]
    exact h.inside
  · dsimp only
    rw [hfree.pages]
    exact hout
  · intro q hq
    dsimp only at hq ⊢
    rw [hfree.moves.same q (Set.disjoint_right.mp hout hq)]
    exact h.ownType q hq
  · dsimp only
    rw [hfree.moves.nrFreePages_eq, hfree.moves.freePages_eq, h.freePages]
    ring

/-- Handing out a free block. -/
theorem PcpInv.handOut (h : PcpInv id c f s) (hr : HandedOut id 0 s.zone p o z') :
    PcpInv id c (f + 2 ^ o) { s with zone := z' } ∧ span p o ⊆ Held id { s with zone := z' } := by
  have hsub : freeSet z' ⊆ freeSet s.zone := by
    rw [← hr.pages]
    exact Set.subset_union_left
  have hspan : span p o ⊆ freeSet s.zone := by
    rw [← hr.pages]
    exact Set.subset_union_right
  refine ⟨⟨hr.detached.lists, hr.moves.types h.types, h.separate, h.typed, ?_,
    h.apart.mono_left hsub, ?_, h.count, ?_, h.batch⟩, fun q hq => ⟨hr.detached.inside hq, ?_⟩⟩
  · dsimp only
    rw [hr.moves.zonePages_eq]
    exact h.inside
  · intro q hq
    dsimp only at hq ⊢
    rw [hr.moves.same q (Set.disjoint_right.mp h.apart hq)]
    exact h.ownType q hq
  · dsimp only
    rw [hr.moves.nrFreePages_eq, hr.moves.freePages_eq, h.freePages]
    ring
  · dsimp only
    rw [Set.mem_union, not_or]
    exact ⟨Set.disjoint_right.mp hr.detached.apart hq,
      Set.disjoint_left.mp h.apart (hspan hq)⟩

/-- Taking a page off the pageset. -/
theorem PcpInv.pcpDel (h : PcpInv id c f s) (hp : p ∈ members s.pcp.lists) :
    PcpInv id (c + 1) f (PcpModel.pcpDel s p) ∧ p ∈ Held id (PcpModel.pcpDel s p) := by
  obtain ⟨t, ht⟩ := mem_members.mp hp
  have hlists : (PcpModel.pcpDel s p).pcp.lists = unlink s.pcp.lists p := rfl
  have hmem : members (PcpModel.pcpDel s p).pcp.lists = members s.pcp.lists \ {p} := by
    rw [hlists, h.separate.members_unlink]
  have hsub : members (PcpModel.pcpDel s p).pcp.lists ⊆ members s.pcp.lists := by
    rw [hmem]
    exact Set.sdiff_subset
  refine ⟨⟨h.lists, h.types, h.separate.unlink p,
    fun q u hq => h.typed q u (List.mem_of_mem_erase hq), hsub.trans h.inside,
    h.apart.mono_right hsub, fun q hq => h.ownType q (hsub hq), ?_, h.freePages, h.batch⟩,
    h.inside hp, ?_⟩
  · have hcount : (PcpModel.pcpDel s p).pcp.count = s.pcp.count := rfl
    rw [hcount, hlists, h.separate.total_unlink ht,
      if_pos (Finset.mem_range.mpr (h.typed p t ht)), h.count]
    ring
  · rw [Set.mem_union, not_or, hmem]
    exact ⟨Set.disjoint_right.mp h.apart hp, fun hc => hc.2 (Set.mem_singleton p)⟩

/-- Putting a held page on the pageset. -/
theorem PcpInv.link (h : PcpInv id c f s) (hp : p ∈ Held id s)
    (hw : (s.zone.pages p).word < migrateTypes) (ht : t < migratePcptypes) {l : List ℕ}
    (hl : l.Perm (p :: s.pcp.lists t)) : PcpInv id (c - 1) f (setPcpList s t l) := by
  have hlists : (setPcpList s t l).pcp.lists = Function.update s.pcp.lists t l := rfl
  have hnew : p ∉ members s.pcp.lists := fun hc => hp.2 (Or.inr hc)
  have hmem : members (setPcpList s t l).pcp.lists = insert p (members s.pcp.lists) := by
    rw [hlists, members_link hl]
  refine ⟨h.lists, h.types, h.separate.link hnew hl, ?_, ?_, ?_, ?_, ?_, h.freePages, h.batch⟩
  · intro q u hq
    rcases (mem_link hl).mp hq with he | hold
    · rw [he.2]
      exact ht
    · exact h.typed q u hold
  · rw [hmem]
    exact Set.insert_subset hp.1 h.inside
  · rw [hmem, Set.disjoint_insert_right]
    exact ⟨fun hc => hp.2 (Or.inl hc), h.apart⟩
  · intro q hq
    rw [hmem] at hq
    rcases Set.mem_insert_iff.mp hq with he | hold
    · rw [he]
      exact hw
    · exact h.ownType q hold
  · have hcount : (setPcpList s t l).pcp.count = s.pcp.count := rfl
    rw [hcount, hlists, total_link hl, if_pos (Finset.mem_range.mpr ht), h.count]
    ring

end BiscuitOS.PcpInvariant
