import BiscuitOS.ZonelistModel

/-!
# Passes over the zones

A request may use the populated zones up to the one of its flags. A pass goes
down from the highest one and takes a block from the first zone that is above
its watermark and has one. A zone that is passed over for lack of a block has
nothing left on its lists, and stays so in the later passes of the request.
-/

namespace BiscuitOS.ZonelistPasses

open PageModel BuddyModel DyadicBlock ListTable PcpModel PcpInvariant PcpLoops PcpHistory
  BootPageset ZoneFrames ZonelistModel
open BuddyInvariant hiding freePages

variable {id page order t i j : ℕ} {S S' : Set ℕ} {s u w : Zones} {v v' : PcpZone} {c f : ℤ}

/-- The zones are consistent, and span different page frames. -/
structure ZonesInv (s : Zones) : Prop where
  /-- Each zone is consistent. -/
  zones : ∀ i < maxNrZones, PcpInv i 0 0 (view s i)
  /-- The zones are apart. -/
  spans : ∀ i < maxNrZones, ∀ j < maxNrZones, i ≠ j →
    Disjoint (zoneSpan (view s i).zone) (zoneSpan (view s j).zone)

/-- A change of the node that frees no pages but those of `S`. -/
structure ZonesFramed (S : Set ℕ) (s u : Zones) : Prop where
  /-- The zone of a page. -/
  zoneId : ∀ q, pageZoneId (u.pages q) = pageZoneId (s.pages q)
  /-- The pages of a zone. -/
  zonePages : ∀ i, zonePages i (view u i).zone = zonePages i (view s i).zone
  /-- Pages that become free. -/
  free : ∀ i, freePagesOf (view u i) ⊆ freePagesOf (view s i) ∪ S
  /-- The limits of the zones. -/
  limits : u.limits = s.limits
  /-- Grouping by mobility. -/
  mobilityDisabled : u.mobilityDisabled = s.mobilityDisabled

/-- Nothing changes. -/
theorem ZonesFramed.refl (s : Zones) : ZonesFramed ∅ s s :=
  ⟨fun _ => rfl, fun _ => rfl, fun _ => Set.subset_union_left, rfl, rfl⟩

/-- One change after another. -/
theorem ZonesFramed.trans (h : ZonesFramed S s u) (h' : ZonesFramed S' u w) :
    ZonesFramed (S ∪ S') s w where
  zoneId q := (h'.zoneId q).trans (h.zoneId q)
  zonePages i := (h'.zonePages i).trans (h.zonePages i)
  free i := by
    have hfirst := Set.union_subset_union_left S' (h.free i)
    rw [Set.union_assoc] at hfirst
    exact (h'.free i).trans hfirst
  limits := h'.limits.trans h.limits
  mobilityDisabled := h'.mobilityDisabled.trans h.mobilityDisabled

/-- One change after another, of which neither frees a page. -/
theorem ZonesFramed.quiet (h : ZonesFramed ∅ s u) (h' : ZonesFramed ∅ u w) : ZonesFramed ∅ s w := by
  have hboth := h.trans h'
  rwa [Set.union_empty] at hboth

/-- Pages that are held stay so unless they become free. -/
theorem ZonesFramed.held (h : ZonesFramed S s u) (hS : Disjoint S' S)
    (hheld : S' ⊆ Held i (view s i)) : S' ⊆ Held i (view u i) := by
  intro q hq
  have hin := hheld hq
  refine ⟨by rw [h.zonePages]; exact hin.1, fun hfree => ?_⟩
  exact (h.free i hfree).elim hin.2 fun hout => Set.disjoint_left.mp hS hq hout

/-- Grouping by mobility does not matter to the lists. -/
theorem PcpInv.grouped (h : PcpInv id c f v) (b : Bool) :
    PcpInv id c f { v with zone := { v.zone with mobilityDisabled := b } } :=
  ⟨⟨h.lists.wf, h.lists.typed, h.lists.separate, h.lists.marked, h.lists.listed, h.lists.inside,
      h.lists.counted⟩,
    h.types, h.separate, h.typed, h.inside, h.apart, h.ownType, h.count, h.freePages, h.batch⟩

/-- The view of the zone that was worked on. -/
theorem view_settle (s : Zones) (i : ℕ) (v : PcpZone) : view (settle s i v) i =
    { v with zone := { v.zone with mobilityDisabled := s.mobilityDisabled } } := by
  simp only [view, settle, Function.update_self]

/-- The view of another zone. -/
theorem view_settle_other (s : Zones) (hne : j ≠ i) (v : PcpZone) : view (settle s i v) j =
    { view s j with zone := { (view s j).zone with pages := v.zone.pages } } := by
  simp only [view, settle, Function.update_of_ne hne]

/-- A change within one zone keeps the node consistent. -/
theorem settle_inv (h : ZonesInv s) (hi : i < maxNrZones) (hv : PcpInv i 0 0 v)
    (hframe : Framed i S (view s i) v) : ZonesInv (settle s i v) ∧ ZonesFramed S s (settle s i v) := by
  have hwithin := hframe.within
  have hspan : ∀ j, zoneSpan (view (settle s i v) j).zone = zoneSpan (view s j).zone := by
    intro j
    by_cases hj : j = i
    · rw [hj, view_settle, zoneSpan, zoneSpan]
      dsimp only
      rw [hwithin.startPfn, hwithin.spannedPages]
    · rw [view_settle_other s hj]
      rfl
  refine ⟨⟨fun j hj => ?_, fun j hj k hk hne => ?_⟩, ⟨hwithin.zoneId, fun j => ?_, fun j => ?_, rfl,
    rfl⟩⟩
  · by_cases hji : j = i
    · rw [hji, view_settle]
      exact PcpInv.grouped hv _
    · rw [view_settle_other s hji]
      refine PcpInv.other (h.zones j hj) hwithin.zoneId fun q hq => hwithin.same q fun hin => ?_
      rcases hq with hq | hq
      · exact Set.disjoint_left.mp (h.spans j hj i hi hji) hq hin.1
      · exact hji (hq.symm.trans hin.2.2)
  · rw [hspan, hspan]
    exact h.spans j hj k hk hne
  · by_cases hji : j = i
    · rw [hji, view_settle]
      exact hwithin.zonePages_eq
    · rw [view_settle_other s hji]
      ext q
      simp only [zonePages, zoneSpan, Set.mem_ofPred_eq, hwithin.zoneId]
      rfl
  · by_cases hji : j = i
    · rw [hji, view_settle]
      exact hframe.free
    · rw [view_settle_other s hji]
      exact Set.subset_union_left

/-- The populated zones up to one, from the highest one down. -/
def candidates (limits : ℕ → ZoneLimits) (high : ℕ) : List ℕ :=
  [2, 1, 0].filter fun i => i ≤ high ∧ (limits i).presentPages ≠ 0

theorem mem_candidates {limits : ℕ → ZoneLimits} {high : ℕ} : i ∈ candidates limits high ↔
    i < maxNrZones ∧ i ≤ high ∧ (limits i).presentPages ≠ 0 := by
  have hzones : i ∈ [2, 1, 0] ↔ i < maxNrZones := by
    rw [maxNrZones]
    simp only [List.mem_cons, List.not_mem_nil, or_false]
    omega
  rw [candidates, List.mem_filter, hzones, decide_eq_true_iff]

theorem candidates_sorted (limits : ℕ → ZoneLimits) (high : ℕ) :
    (candidates limits high).Pairwise (· > ·) :=
  List.Pairwise.filter _ (by decide)

/-- Going through zones as `get_page_from_freelist` does. -/
def tryZones (r : Request) (allocFlags : ℕ) (pageState : ℕ → ℤ) :
    List ℕ → Zones → Option (Option ℕ × Zones)
  | [], s => some (none, s)
  | i :: rest, s =>
    if worthTrying r allocFlags pageState s i then
      match bufferedRmqueue (view s i) r.order r.migratetype (gfpFlags r.gfpMask) with
      | none => none
      | some (some page, v) => some (some page, settle s i v)
      | some (none, v) => tryZones r allocFlags pageState rest (settle s i v)
    else tryZones r allocFlags pageState rest s

variable {r : Request} {allocFlags : ℕ} {pageState : ℕ → ℤ}

/-- Entries of populated zones, followed by others. -/
theorem getPageFromFreelist_append (l : List ℕ) (rest : List Zoneref) :
    ∀ s, (∀ s, getPageFromFreelist r allocFlags pageState rest s = some (none, s)) →
    getPageFromFreelist r allocFlags pageState (l.map (fun i => ⟨some i, i⟩) ++ rest) s =
      tryZones r allocFlags pageState (l.filter fun i => i ≤ r.highZoneidx) s := by
  induction l with
  | nil =>
    intro s hrest
    exact hrest s
  | cons i l ih =>
    intro s hrest
    rw [List.map_cons, List.cons_append, getPageFromFreelist]
    dsimp only
    by_cases hi : r.highZoneidx < i
    · rw [if_pos hi, List.filter_cons_of_neg (by simpa using hi)]
      exact ih s hrest
    · rw [if_neg hi, List.filter_cons_of_pos (by simpa using hi), tryZones]
      by_cases htry : worthTrying r allocFlags pageState s i
      · rw [if_pos htry, if_pos htry]
        rcases bufferedRmqueue (view s i) r.order r.migratetype (gfpFlags r.gfpMask) with
          _ | ⟨_ | page, v⟩
        · rfl
        · exact ih (settle s i v) hrest
        · rfl
      · rw [if_neg htry, if_neg htry]
        exact ih s hrest

/-- The list of zones has the populated ones and an end. -/
theorem buildZonelists_eq (limits : ℕ → ZoneLimits) : buildZonelists limits =
    ([2, 1, 0].filter fun i => (limits i).presentPages ≠ 0).map (fun i => ⟨some i, i⟩) ++
      [⟨none, 0⟩] := by
  rw [buildZonelists, maxNrZones]
  simp only [buildZonelistsNode, Nat.add_one_sub_one]
  by_cases h2 : (limits 2).presentPages = 0 <;> by_cases h1 : (limits 1).presentPages = 0 <;>
    by_cases h0 : (limits 0).presentPages = 0 <;> simp [h2, h1, h0]

/-- `get_page_from_freelist` goes through the zones that the request may use. -/
theorem getPageFromFreelist_eq (s : Zones) (limits : ℕ → ZoneLimits) :
    getPageFromFreelist r allocFlags pageState (buildZonelists limits) s =
      tryZones r allocFlags pageState (candidates limits r.highZoneidx) s := by
  have hend : ∀ s, getPageFromFreelist r allocFlags pageState [⟨none, 0⟩] s = some (none, s) :=
    fun s => by simp [getPageFromFreelist]
  rw [buildZonelists_eq, getPageFromFreelist_append _ _ s hend, List.filter_filter, candidates]
  congr 2
  funext i
  simp

/-- The first entry that is not above a zone. -/
theorem firstZonesZonelist_append (l : List ℕ) (high : ℕ) :
    firstZonesZonelist (l.map (fun i => ⟨some i, i⟩) ++ [⟨none, 0⟩]) high =
      (l.filter fun i => i ≤ high).head? := by
  induction l with
  | nil => rfl
  | cons i l ih =>
    rw [firstZonesZonelist, nextZonesZonelist] at ih ⊢
    rw [List.map_cons, List.cons_append]
    by_cases hi : high < i
    · rw [List.dropWhile_cons_of_pos (by simpa using hi), ih,
        List.filter_cons_of_neg (by simpa using hi)]
    · rw [List.dropWhile_cons_of_neg (by simpa using hi), List.filter_cons_of_pos (by simpa using hi)]
      rfl

/-- The preferred zone is the first one that the request may use. -/
theorem firstZonesZonelist_eq (limits : ℕ → ZoneLimits) (high : ℕ) :
    firstZonesZonelist (buildZonelists limits) high = (candidates limits high).head? := by
  rw [buildZonelists_eq, firstZonesZonelist_append, List.filter_filter, candidates]
  congr 2
  funext i
  simp

/-- The list starts with a zone when one is populated. -/
theorem buildZonelists_head (limits : ℕ → ZoneLimits) {high : ℕ} (h : candidates limits high ≠ []) :
    (buildZonelists limits).head?.bind Zoneref.zone ≠ none := by
  obtain ⟨i, hi⟩ := List.exists_mem_of_ne_nil _ h
  obtain ⟨hzone, -, hpresent⟩ := mem_candidates.mp hi
  have hmem : i ∈ [2, 1, 0].filter fun i => (limits i).presentPages ≠ 0 := by
    have hzones : i ∈ [2, 1, 0] := by
      rw [maxNrZones] at hzone
      simp only [List.mem_cons, List.not_mem_nil, or_false]
      omega
    exact List.mem_filter.mpr ⟨hzones, decide_eq_true hpresent⟩
  rw [buildZonelists_eq]
  cases hl : [2, 1, 0].filter fun i => (limits i).presentPages ≠ 0 with
  | nil =>
    rw [hl] at hmem
    cases hmem
  | cons j l => exact fun hnone => by cases hnone

/-- What a zone says to a request: it may be tried, and still has nothing on its lists. -/
def Empty (r : Request) (allocFlags : ℕ) (pageState : ℕ → ℤ) (s u : Zones) (i : ℕ) : Prop :=
  worthTrying r allocFlags pageState s i = true → Exhausted (view u i) r.order r.migratetype

/-- What a pass over zones gives: a block of a zone, when those before it have none, or nothing,
when no zone has one. -/
structure Passed (r : Request) (allocFlags : ℕ) (pageState : ℕ → ℤ) (l : List ℕ) (s : Zones)
    (p : Option ℕ) (u : Zones) : Prop where
  /-- The node is consistent. -/
  inv : ZonesInv u
  /-- No page becomes free. -/
  framed : ZonesFramed ∅ s u
  /-- A zone with nothing on its lists still has nothing. -/
  kept : ∀ j, Exhausted (view s j) r.order r.migratetype → Exhausted (view u j) r.order r.migratetype
  /-- Without a block all zones refused. -/
  refused : p = none → ∀ i ∈ l, Empty r allocFlags pageState s u i
  /-- A block is of the first zone that did not. -/
  block : ∀ page, p = some page → ∃ before i after, l = before ++ i :: after ∧
    worthTrying r allocFlags pageState s i = true ∧ FreeBlock (view s i) page r.order ∧
    span page r.order ⊆ Held i (view u i) ∧
    ∀ j ∈ before, Empty r allocFlags pageState s u j

/-- Work on one zone does not matter to the lists of another one. -/
theorem Exhausted.other (h : Exhausted (view s j) order t) (hne : j ≠ i) (v : PcpZone) :
    Exhausted (view (settle s i v) j) order t := by
  rw [view_settle_other s hne]
  exact ⟨h.pageset, h.lists⟩

/-- Work on one zone does not matter to the free blocks of another one. -/
theorem FreeBlock.other (h : FreeBlock (view (settle s i v) j) page order) (hne : j ≠ i) :
    FreeBlock (view s j) page order := by
  rw [view_settle_other s hne] at h
  exact ⟨h.order_lt, h.aligned, h.free⟩

/-- Work on one zone does not matter to the watermark of another one. -/
theorem worthTrying_settle (hne : j ≠ i) (v : PcpZone) :
    worthTrying r allocFlags pageState (settle s i v) j = worthTrying r allocFlags pageState s j := by
  simp only [worthTrying, settle, Function.update_of_ne hne]

variable (order) in
/-- `buffered_rmqueue` of one of the zones. -/
theorem buffered_settle (h : ZonesInv s) (hi : i < maxNrZones) (ht : t < migratePcptypes)
    (gfp : GfpFlags) : ∃ q, bufferedRmqueue (view s i) order t gfp = some q ∧
      ZonesInv (settle s i q.2) ∧ ZonesFramed ∅ s (settle s i q.2) ∧
      (q.1 = none → Exhausted (view (settle s i q.2) i) order t) ∧
      ∀ page ∈ q.1, FreeBlock (view s i) page order ∧
        span page order ⊆ Held i (view (settle s i q.2) i) := by
  have htypes : t < migrateTypes := Nat.lt_trans ht (by decide)
  obtain ⟨q, hq, hinv, hheld⟩ := bufferedRmqueue_spec (h.zones i hi) htypes (fun _ => ht) gfp
  obtain ⟨hframe, hfree⟩ := framed_bufferedRmqueue (h.zones i hi) htypes (fun _ => ht) hq
  obtain ⟨hnode, hframed⟩ := settle_inv h hi hinv hframe
  refine ⟨q, hq, hnode, hframed, fun hnone => ?_, fun page hpage => ⟨hfree page hpage, ?_⟩⟩
  · obtain ⟨p, v⟩ := q
    obtain rfl : p = none := hnone
    have hexhausted := bufferedRmqueue_exhausted (h.zones i hi) ht hq
    rw [view_settle]
    exact ⟨hexhausted.pageset, hexhausted.lists⟩
  · rw [view_settle]
    exact hheld page hpage

/-- Passing a zone that refuses before the others. -/
theorem Passed.cons {m : Zones} {p : Option ℕ} {rest : List ℕ} (hframed : ZonesFramed ∅ s m)
    (hkept : ∀ j, Exhausted (view s j) r.order r.migratetype →
      Exhausted (view m j) r.order r.migratetype)
    (hempty : Empty r allocFlags pageState s m i) (hnot : i ∉ rest)
    (hworth : ∀ j, j ≠ i →
      worthTrying r allocFlags pageState m j = worthTrying r allocFlags pageState s j)
    (hfree : ∀ j, j ≠ i → ∀ page order, FreeBlock (view m j) page order →
      FreeBlock (view s j) page order)
    (h : Passed r allocFlags pageState rest m p u) :
    Passed r allocFlags pageState (i :: rest) s p u := by
  have hne : ∀ j ∈ rest, j ≠ i := fun j hj he => hnot (he ▸ hj)
  have hhere : Empty r allocFlags pageState s u i := fun hw => h.kept i (hempty hw)
  refine ⟨h.inv, hframed.quiet h.framed, fun j hx => h.kept j (hkept j hx), fun hp j hj => ?_,
    fun page hp => ?_⟩
  · rcases List.mem_cons.mp hj with rfl | hj
    · exact hhere
    · exact fun hw => h.refused hp j hj ((hworth j (hne j hj)).trans hw)
  · obtain ⟨before, k, after, rfl, hk, hblock, hheld, hbefore⟩ := h.block page hp
    have hki := hne k (List.mem_append_right _ List.mem_cons_self)
    refine ⟨i :: before, k, after, rfl, (hworth k hki).symm.trans hk, hfree k hki _ _ hblock, hheld,
      fun j hj => ?_⟩
    rcases List.mem_cons.mp hj with rfl | hj
    · exact hhere
    · exact fun hw => hbefore j hj ((hworth j (hne j (List.mem_append_left _ hj))).trans hw)

/-- A pass over zones. -/
theorem tryZones_passed (ht : r.migratetype < migratePcptypes) (l : List ℕ) :
    ∀ {s : Zones}, ZonesInv s → (∀ i ∈ l, i < maxNrZones) → l.Nodup →
    ∃ p u, tryZones r allocFlags pageState l s = some (p, u) ∧
      Passed r allocFlags pageState l s p u := by
  induction l with
  | nil =>
    intro s h _ _
    exact ⟨none, s, rfl, h, .refl s, fun _ hx => hx, fun _ i hi => (by cases hi),
      fun _ hc => (by cases hc)⟩
  | cons i rest ih =>
    intro s h hzones hnodup
    obtain ⟨hnot, hrest⟩ := List.nodup_cons.mp hnodup
    have hi := hzones i List.mem_cons_self
    have hzones' : ∀ j ∈ rest, j < maxNrZones := fun j hj => hzones j (List.mem_cons_of_mem i hj)
    rw [tryZones]
    split
    · next hworth =>
      obtain ⟨q, hq, hnode, hframed, hnone, hsome⟩ :=
        buffered_settle r.order h hi ht (gfpFlags r.gfpMask)
      rw [hq]
      obtain ⟨qp, v⟩ := q
      cases qp with
      | some page =>
        obtain ⟨hfree, hheld⟩ := hsome page rfl
        refine ⟨some page, settle s i v, rfl, hnode, hframed, fun j hx => ?_,
          fun hc => (by cases hc), fun p hp => ⟨[], i, rest, rfl, hworth, ?_, ?_,
            fun j hj => (by cases hj)⟩⟩
        · by_cases hj : j = i
          · rw [hj] at hx
            rw [hx.bufferedRmqueue ht] at hq
            cases hq
          · exact Exhausted.other hx hj v
        · rw [← Option.some.inj hp]
          exact hfree
        · rw [← Option.some.inj hp]
          exact hheld
      | none =>
        obtain ⟨p, u, hrun, hpassed⟩ := ih hnode hzones' hrest
        have hkept : ∀ j, Exhausted (view s j) r.order r.migratetype →
            Exhausted (view (settle s i v) j) r.order r.migratetype := by
          intro j hx
          by_cases hj : j = i
          · rw [hj]
            exact hnone rfl
          · exact Exhausted.other hx hj v
        exact ⟨p, u, hrun, hpassed.cons hframed hkept (fun _ => hnone rfl) hnot
          (fun j hj => worthTrying_settle hj v) fun j hj _ _ hb => FreeBlock.other hb hj⟩
    · next hworth =>
      obtain ⟨p, u, hrun, hpassed⟩ := ih h hzones' hrest
      exact ⟨p, u, hrun, hpassed.cons (.refl s) (fun _ hx => hx)
        (fun hw => absurd hw hworth) hnot (fun _ _ => rfl) fun _ _ _ _ hb => hb⟩

variable (allocFlags pageState) in
/-- A pass of `get_page_from_freelist` over the list of zones. -/
theorem getPageFromFreelist_passed (h : ZonesInv s) (ht : r.migratetype < migratePcptypes)
    (limits : ℕ → ZoneLimits) :
    ∃ p u, getPageFromFreelist r allocFlags pageState (buildZonelists limits) s = some (p, u) ∧
      Passed r allocFlags pageState (candidates limits r.highZoneidx) s p u := by
  rw [getPageFromFreelist_eq]
  refine tryZones_passed ht _ h (fun i hi => (mem_candidates.mp hi).1) ?_
  exact (candidates_sorted limits r.highZoneidx).imp fun hgt => Nat.ne_of_gt hgt

/-- A pass that `alloc_pages` makes for a request: as which request, with which flags, and with
which values of `zone_page_state`. -/
structure Pass where
  /-- The request. -/
  request : Request
  /-- `alloc_flags`. -/
  allocFlags : ℕ
  /-- `zone_page_state`. -/
  pageState : ℕ → ℤ

/-- A zone refuses a pass that starts at the node `s`: it is below its watermark there, or has
nothing on its lists in the end. -/
def Pass.Refused (p : Pass) (s u : Zones) (i : ℕ) : Prop :=
  Empty p.request p.allocFlags p.pageState s u i

/-- One pass after another, until one gives a block. -/
def attempts (limits : ℕ → ZoneLimits) : List Pass → Zones → Option (Option ℕ × Zones)
  | [], s => some (none, s)
  | p :: rest, s =>
    match getPageFromFreelist p.request p.allocFlags p.pageState (buildZonelists limits) s with
    | none => none
    | some (some page, u) => some (some page, u)
    | some (none, u) => attempts limits rest u

/-- What passes that give nothing leave of the node. -/
structure Nothing (r : Request) (passes : List Pass) (s u : Zones) : Prop where
  /-- The passes lead here. -/
  reached : attempts s.limits passes s = some (none, u)
  /-- The node is consistent. -/
  inv : ZonesInv u
  /-- No page becomes free. -/
  framed : ZonesFramed ∅ s u
  /-- A zone with nothing on its lists still has nothing. -/
  kept : ∀ j, Exhausted (view s j) r.order r.migratetype → Exhausted (view u j) r.order r.migratetype
  /-- In each pass, at the node it found, all zones of the request refused. -/
  refused : ∀ before p after m, passes = before ++ p :: after →
    attempts s.limits before s = some (none, m) →
    ∀ i ∈ candidates s.limits r.highZoneidx, p.Refused m u i

/-- What passes that give a block leave of the node: the block is of the highest zone that did not
refuse, in the first pass in which one did not. -/
structure Served (r : Request) (passes : List Pass) (s u : Zones) (page : ℕ) : Prop where
  /-- The passes lead here. -/
  reached : attempts s.limits passes s = some (some page, u)
  /-- The node is consistent. -/
  inv : ZonesInv u
  /-- No page becomes free. -/
  framed : ZonesFramed ∅ s u
  /-- The block was free, and is on no list. -/
  block : ∃ before p after m, passes = before ++ p :: after ∧ Nothing r before s m ∧
    ∃ i ∈ candidates s.limits r.highZoneidx,
      worthTrying p.request p.allocFlags p.pageState m i = true ∧
      FreeBlock (view s i) page r.order ∧ span page r.order ⊆ Held i (view u i) ∧
      ∀ j ∈ candidates s.limits r.highZoneidx, i < j → p.Refused m u j

/-- A pass for a request: it asks for the same. -/
structure Pass.For (p : Pass) (r : Request) : Prop where
  /-- The order. -/
  order : p.request.order = r.order
  /-- The highest zone. -/
  highZoneidx : p.request.highZoneidx = r.highZoneidx
  /-- The mobility. -/
  migratetype : p.request.migratetype = r.migratetype

variable {p : Pass} {passes : List Pass} {m : Zones}

/-- Blocks that are free after a quiet change were free before. -/
theorem FreeBlock.earlier (h : FreeBlock (view m i) page order) (hframed : ZonesFramed ∅ s m) :
    FreeBlock (view s i) page order := by
  refine ⟨h.order_lt, h.aligned, fun q hq => ?_⟩
  exact (hframed.free i (h.free hq)).elim (fun hold => hold) fun hnone => by cases hnone

/-- No passes give nothing. -/
theorem nothing_nil (r : Request) (h : ZonesInv s) : Nothing r [] s s :=
  ⟨rfl, h, .refl s, fun _ hx => hx, fun before p after m hl => by simp at hl⟩

/-- Passes behind one that gives nothing. -/
theorem attempts_cons {limits : ℕ → ZoneLimits} (hrun : getPageFromFreelist p.request p.allocFlags
    p.pageState (buildZonelists limits) s = some (none, m)) (passes : List Pass) :
    attempts limits (p :: passes) s = attempts limits passes m := by
  simp only [attempts, hrun]

section First

variable (hp : p.For r)
  (hrun : getPageFromFreelist p.request p.allocFlags p.pageState (buildZonelists s.limits) s =
    some (none, m))
  (hpassed : Passed p.request p.allocFlags p.pageState (candidates s.limits r.highZoneidx) s none m)

include hp hrun hpassed

/-- A first pass that gives nothing, before others that give nothing. -/
theorem Nothing.cons (h : Nothing r passes m u) : Nothing r (p :: passes) s u := by
  have hlimits := hpassed.framed.limits
  refine ⟨?_, h.inv, hpassed.framed.quiet h.framed, fun j hx => h.kept j ?_, ?_⟩
  · rw [attempts_cons hrun, ← hlimits]
    exact h.reached
  · rw [← hp.order, ← hp.migratetype] at hx ⊢
    exact hpassed.kept j hx
  · intro before q after w hl hreach i hi
    cases before with
    | nil =>
      obtain ⟨rfl, -⟩ := List.cons.inj hl
      obtain rfl : s = w := (Prod.mk.inj (Option.some.inj hreach)).2
      intro hworth
      have hempty := hpassed.refused rfl i hi hworth
      rw [hp.order, hp.migratetype] at hempty ⊢
      exact h.kept i hempty
    | cons first before =>
      obtain ⟨rfl, hrest⟩ := List.cons.inj hl
      rw [attempts_cons hrun] at hreach
      rw [← hlimits] at hreach hi
      exact h.refused before q after w hrest hreach i hi

/-- A first pass that gives nothing, before others that give a block. -/
theorem Served.cons (h : Served r passes m u page) : Served r (p :: passes) s u page := by
  have hlimits := hpassed.framed.limits
  obtain ⟨before, q, after, w, rfl, hbefore, i, hi, hworth, hfree, hheld, habove⟩ := h.block
  refine ⟨?_, h.inv, hpassed.framed.quiet h.framed, p :: before, q, after, w, rfl,
    hbefore.cons hp hrun hpassed, i, ?_, hworth, FreeBlock.earlier hfree hpassed.framed, hheld, ?_⟩
  · rw [attempts_cons hrun, ← hlimits]
    exact h.reached
  · rwa [← hlimits]
  · rwa [← hlimits]

end First

/-- A pass that gives a block, whatever would follow. -/
theorem Passed.served (hp : p.For r) (h : ZonesInv s)
    (hrun : getPageFromFreelist p.request p.allocFlags p.pageState (buildZonelists s.limits) s =
      some (some page, u))
    (hpassed : Passed p.request p.allocFlags p.pageState (candidates s.limits r.highZoneidx) s
      (some page) u) : Served r (p :: passes) s u page := by
  obtain ⟨before, i, after, hl, hworth, hfree, hheld, hbefore⟩ := hpassed.block page rfl
  rw [hp.order] at hfree hheld
  refine ⟨by simp only [attempts, hrun], hpassed.inv, hpassed.framed, [], p, passes, s, rfl,
    nothing_nil r h, i, ?_, hworth, hfree, hheld, fun j hj hij => ?_⟩
  · rw [hl]
    exact List.mem_append_right _ List.mem_cons_self
  · have hsorted := candidates_sorted s.limits r.highZoneidx
    rw [hl] at hj hsorted
    rcases List.mem_append.mp hj with hj | hj
    · exact hbefore j hj
    · have hrest := (List.pairwise_append.mp hsorted).2.1
      rcases List.mem_cons.mp hj with rfl | hj
      · exact absurd hij (Nat.lt_irrefl _)
      · exact absurd hij (Nat.lt_asymm ((List.pairwise_cons.mp hrest).1 j hj))

/-- Without a populated zone passes do nothing. -/
theorem attempts_unpopulated {limits : ℕ → ZoneLimits} (passes : List Pass)
    (hfor : ∀ p ∈ passes, p.For r) (hnone : candidates limits r.highZoneidx = []) :
    attempts limits passes s = some (none, s) := by
  induction passes with
  | nil => rfl
  | cons p rest ih =>
    have hrun : getPageFromFreelist p.request p.allocFlags p.pageState (buildZonelists limits) s =
        some (none, s) := by
      rw [getPageFromFreelist_eq, (hfor p List.mem_cons_self).highZoneidx, hnone]
      rfl
    rw [attempts_cons hrun]
    exact ih fun p hp => hfor p (List.mem_cons_of_mem _ hp)

/-- Passes for a request give nothing or a block. -/
theorem attempts_outcome (ht : r.migratetype < migratePcptypes) (passes : List Pass)
    (hfor : ∀ p ∈ passes, p.For r) : ∀ {s : Zones}, ZonesInv s →
    (∃ u, Nothing r passes s u) ∨ ∃ page u, Served r passes s u page := by
  induction passes with
  | nil => exact fun {s} h => .inl ⟨s, nothing_nil r h⟩
  | cons p rest ih =>
    intro s h
    have hp := hfor p List.mem_cons_self
    obtain ⟨q, m, hrun, hpassed⟩ := getPageFromFreelist_passed p.allocFlags p.pageState h
      (hp.migratetype.symm ▸ ht) s.limits
    rw [hp.highZoneidx] at hpassed
    cases q with
    | some page => exact .inr ⟨page, m, hpassed.served hp h hrun⟩
    | none =>
      rcases ih (fun p hp => hfor p (List.mem_cons_of_mem _ hp)) hpassed.inv with
        ⟨u, hnothing⟩ | ⟨page, u, hserved⟩
      · exact .inl ⟨u, hnothing.cons hp hrun hpassed⟩
      · exact .inr ⟨page, u, hserved.cons hp hrun hpassed⟩

end BiscuitOS.ZonelistPasses
