import BiscuitOS.PcpHistory

/-!
# The pageset of the boot

Until the percpu allocator is there, all zones share one pageset, set up with
a watermark of zero and a batch of one. Each refill fetches the page that is
taken and each free drains at once, so that the pageset is empty between any
two operations and the zones keep their pages apart. Replacing the pageset of a
zone loses no page but those that `alloc_percpu` takes. Single pages are requested for a migrate type with a list;
`allocflags_to_migratetype` warns of the flags that give another one.
-/

namespace BiscuitOS.BootPageset

open PageModel BuddyModel DyadicBlock ListTable BuddyInvariant BuddyHistory BuddyBlock BuddyRemoval
  PcpModel PcpInvariant PcpLoops PcpHistory TransitionRun MachineWord

/-- `MAX_NR_ZONES`. -/
def maxNrZones : ℕ := 3

/-- The zones of the node, `mem_map`, and the pageset that they share. -/
structure Node where
  /-- `node_zones`, whose descriptors are those of `mem_map`. -/
  zones : ℕ → Zone
  /-- `mem_map`. -/
  pages : Pages
  /-- `boot_pageset`. -/
  pcp : PerCpuPages

/-- A zone with the descriptors. -/
def zoneAt (s : Node) (i : ℕ) : Zone := { s.zones i with pages := s.pages }

/-- A zone with the pageset, as the functions on it see them. -/
def zoneView (s : Node) (i : ℕ) : PcpZone := ⟨zoneAt s i, s.pcp⟩

/-- The free pages of a zone: those in free blocks, and those on its pageset. -/
def freePagesOf (v : PcpZone) : Set ℕ := freeSet v.zone ∪ members v.pcp.lists

/-- The node when the boot pageset is set up: no page is freed yet, and the zones span different
page frames. -/
structure Booting (s : Node) : Prop where
  untouched : ∀ i < maxNrZones, Untouched i (zoneAt s i)
  types : ∀ i < maxNrZones, ∀ b, (s.zones i).blockType b < migrateTypes
  nrFreePages : ∀ i < maxNrZones, (s.zones i).nrFreePages = 0
  spans : ∀ i < maxNrZones, ∀ j < maxNrZones, i ≠ j →
    Disjoint (zoneSpan (s.zones i)) (zoneSpan (s.zones j))
  pageset : s.pcp = setupPageset 0

variable {id page order n : ℕ} {s s' : Node} {v v' : PcpZone} {z z' z'' : Zone} {op : NodeOp}
  {pages' : Pages} {S : Set ℕ} {m : ℤ}

/-- What an operation on a zone leaves alone: the extent of the zone, the zone numbers, and the
descriptors of other pages. -/
structure Within (id : ℕ) (z z' : Zone) : Prop where
  startPfn : z'.startPfn = z.startPfn
  spannedPages : z'.spannedPages = z.spannedPages
  pfnValid : z'.pfnValid = z.pfnValid
  zoneId : ∀ q, pageZoneId (z'.pages q) = pageZoneId (z.pages q)
  same : ∀ q, q ∉ zonePages id z → z'.pages q = z.pages q

/-- Nothing changes. -/
theorem Within.refl (id : ℕ) (z : Zone) : Within id z z :=
  ⟨rfl, rfl, rfl, fun _ => rfl, fun _ _ => rfl⟩

/-- The pages of the zone stay. -/
theorem Within.zonePages_eq (h : Within id z z') : zonePages id z' = zonePages id z := by
  ext q
  simp only [zonePages, zoneSpan, Set.mem_ofPred_eq, h.startPfn, h.spannedPages, h.pfnValid,
    h.zoneId]

/-- One change after another. -/
theorem Within.trans (h : Within id z z') (h' : Within id z' z'') : Within id z z'' where
  startPfn := h'.startPfn.trans h.startPfn
  spannedPages := h'.spannedPages.trans h.spannedPages
  pfnValid := h'.pfnValid.trans h.pfnValid
  zoneId q := (h'.zoneId q).trans (h.zoneId q)
  same q hq := (h'.same q (by rwa [h.zonePages_eq])).trans (h.same q hq)

/-- Changing descriptors of pages of the zone. -/
theorem Within.keeps (hk : Keeps z.pages pages' S) (hS : S ⊆ zonePages id z) :
    Within id z { z with pages := pages' } :=
  ⟨rfl, rfl, rfl, hk.zoneId, fun q hq => hk.same q fun hc => hq (hS hc)⟩

/-- Moving pages of the zone between its free lists. -/
theorem Within.moves (hm : Moves z z' S m) (hS : S ⊆ zonePages id z) : Within id z z' where
  startPfn := hm.startPfn_eq
  spannedPages := hm.spannedPages_eq
  pfnValid := hm.pfnValid_eq
  zoneId q := by
    obtain ⟨c, w, hq⟩ := hm.marks q
    rw [hq, pageZoneId, pageZoneId]
  same q hq := hm.same q fun hc => hq (hS hc)

/-- Counting free pages. -/
theorem Within.counted (h : Within id z z') (c : ℤ) : Within id z (modFreePages z' c) :=
  ⟨h.startPfn, h.spannedPages, h.pfnValid, h.zoneId, h.same⟩

/-- Held pages are pages of the zone. -/
theorem held_subset (v : PcpZone) : Held id v ⊆ zonePages id v.zone := Set.sdiff_subset

/-- Freeing a held block. -/
theorem within_freeOnePage {c f : ℤ} {t : ℕ} (h : PcpInv id c f v) (ho : order < maxOrder)
    (ht : t < migrateTypes) (hal : 2 ^ order ∣ page) (hS : span page order ⊆ Held id v) :
    Within id v.zone (freeOnePage v.zone page order t) := by
  have hdet : Detached id 0 v.zone page order :=
    ⟨h.lists, Nat.le_of_lt_succ ho, hal, fun q hq => (hS hq).1, held_not_free.mono_right hS⟩
  exact .moves (freeOnePage_spec hdet ht).moves
    (Set.union_subset h.lists.inside (hS.trans (held_subset v)))

/-- The checks before a free. -/
theorem within_checked (hS : span page order ⊆ Held id v) :
    Within id v.zone { clearPageMlocked v.zone page with
      pages := (freePagesPrepare (clearPageMlocked v.zone page).pages page order).2 } :=
  .keeps ((keeps_clearPageMlocked (hS (mem_span_self page order))).trans
    (keeps_freePagesPrepare hS)) (held_subset v)

/-- The invariant: the zones are consistent with the shared pageset, which is as it was set up. -/
structure NodeInv (s : Node) : Prop where
  zones : ∀ i < maxNrZones, PcpInv i 0 0 (zoneView s i)
  spans : ∀ i < maxNrZones, ∀ j < maxNrZones, i ≠ j →
    Disjoint (zoneSpan (s.zones i)) (zoneSpan (s.zones j))
  pageset : s.pcp = setupPageset 0

/-- The boot starts with the invariant. -/
theorem Booting.inv (h : Booting s) : NodeInv s := by
  have hwithin : SetUpWithin s.pcp := by
    rw [h.pageset]
    exact .pageset 0 (by decide)
  exact ⟨fun i hi => initial_inv (h.untouched i hi) (h.types i hi) (h.nrFreePages i hi) hwithin,
    h.spans, h.pageset⟩

/-- A zone keeps its invariant when descriptors change outside its span and its zone number. -/
theorem PcpInv.other {j : ℕ} (h : PcpInv j 0 0 v)
    (hid : ∀ q, pageZoneId (pages' q) = pageZoneId (v.zone.pages q))
    (hsame : ∀ q, q ∈ zoneSpan v.zone ∨ pageZoneId (v.zone.pages q) = j →
      pages' q = v.zone.pages q) :
    PcpInv j 0 0 { v with zone := { v.zone with pages := pages' } } := by
  have hpages : zonePages j { v.zone with pages := pages' } = zonePages j v.zone := by
    ext q
    simp only [zonePages, zoneSpan, Set.mem_ofPred_eq, hid]
  have hlists : FreeLists j 0 { v.zone with pages := pages' } := by
    refine ⟨h.lists.wf, h.lists.typed, h.lists.separate, fun q o hq => ?_, fun q hq hb => ?_, ?_,
      h.lists.counted⟩
    · have hfree : q ∈ freeSet v.zone := span_subset_covered hq (mem_span_self q o)
      dsimp only
      rw [hsame q (Or.inl (h.lists.inside hfree).1)]
      exact h.lists.marked q o hq
    · dsimp only at hq hb ⊢
      rw [hid] at hq
      rw [hsame q hq] at hb ⊢
      exact h.lists.listed q hq hb
    · rw [hpages]
      exact h.lists.inside
  refine ⟨hlists, h.types, h.separate, h.typed, ?_, h.apart, fun q hq => ?_, h.count, h.freePages,
    h.batch⟩
  · dsimp only
    rw [hpages]
    exact h.inside
  · dsimp only
    rw [hsame q (Or.inl (h.inside hq).1)]
    exact h.ownType q hq

/-- A node with four pages from 8 on in zone 0 and four from 12 on in zone 1; zone 2 is empty. -/
def twoZones : Node where
  zones i :=
    if i = 0 then fourPages
    else if i = 1 then { fourPages with startPfn := 12, pfnValid := fun q => 12 ≤ q ∧ q < 16 }
    else { fourPages with startPfn := 16, spannedPages := 0, pfnValid := fun _ => false }
  pages q := ⟨if q < 12 then 0 else 1 <<< 30, 0, -1, 0, 0, 0⟩
  pcp := setupPageset 0

/-- The node may boot. -/
theorem twoZones_booting : Booting twoZones := by
  have hzones : ∀ i < maxNrZones, (twoZones.zones i).freeList = (fun _ _ => []) ∧
      (twoZones.zones i).nrFree = (fun _ => 0) ∧
      (twoZones.zones i).blockType = (fun _ => migrateMovable) ∧
      (twoZones.zones i).nrFreePages = 0 := by
    intro i _
    simp only [twoZones]
    split
    · exact ⟨rfl, rfl, rfl, rfl⟩
    · split
      · exact ⟨rfl, rfl, rfl, rfl⟩
      · exact ⟨rfl, rfl, rfl, rfl⟩
  have hspan : ∀ i < maxNrZones, zoneSpan (twoZones.zones i) =
      Set.Ico (8 + 4 * i) (8 + 4 * i + if i = 2 then 0 else 4) := by
    intro i hi
    have hcases : i = 0 ∨ i = 1 ∨ i = 2 := by
      rw [maxNrZones] at hi
      omega
    rcases hcases with rfl | rfl | rfl <;> rfl
  refine ⟨fun i hi => ?_, fun i hi b => ?_, fun i hi => (hzones i hi).2.2.2,
    fun i hi j hj hne => ?_, rfl⟩
  · obtain ⟨hlist, hnr, -, -⟩ := hzones i hi
    refine ⟨fun o t => ?_, fun o => ?_, fun p _ => rfl⟩
    · exact congrFun (congrFun hlist o) t
    · exact congrFun hnr o
  · rw [(hzones i hi).2.2.1]
    exact (by decide : migrateMovable < migrateTypes)
  · rw [hspan i hi, hspan j hj, Set.disjoint_left]
    intro q hq hq'
    rw [Set.mem_Ico] at hq hq'
    split at hq <;> split at hq' <;> omega

end BiscuitOS.BootPageset
