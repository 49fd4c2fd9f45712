import BiscuitOS.MemblockUpdate

/-!
# A region table over its whole history

Insertions and removals performed one after the other from `memblock_init`.
As long as an emptied table is not refilled next to its stale entries, the
table describes exactly the union and difference of the operations.
-/

namespace BiscuitOS.MemblockHistory

open MachineWord TransitionRun MemblockModel MemblockTable MemblockUpdate

/-- An update of one table. -/
inductive TableOp
  /-- `memblock_add_region(type, base, size)`. -/
  | add (base size : ℕ)
  /-- `__memblock_remove(type, base, size)`. -/
  | remove (base size : ℕ)

/-- Perform an update; the return code is dropped. -/
def perform (depth : ℕ) (id : TableId) (m : Memblock) : TableOp → Option Memblock
  | .add base size => (memblockAddRegion depth id base size m).map Prod.snd
  | .remove base size => (memblockRemove depth id base size m).map Prod.snd

/-- What an update means for a set of addresses. -/
def describe (covered : Set ℕ) : TableOp → Set ℕ
  | .add base size => covered ∪ Set.Ico base (base + size)
  | .remove base size => covered \ Set.Ico base (base + size)

/-- A nonempty range that does not wrap. An insertion repeats a stored entry or brings only
new bytes; a removal stays within one entry. -/
def Legal (t : MemblockType) : TableOp → Prop
  | .add base size => 0 < size ∧ base + size < 2 ^ 32 ∧
      ((∃ i < t.cnt, t.regions i = ⟨base, size⟩) ∨
        Disjoint (bytes t) (Set.Ico base (base + size)))
  | .remove base size => 0 < size ∧ ∃ i < t.cnt, Within t base size i

/-- The table is not full, not even with the entry the update may have to open. -/
def NotFull (t : MemblockType) : TableOp → Prop
  | .add base size => t.cnt < t.max ∧
      (¬ IsDummy t → (∀ k < t.cnt, Untouched t base size k) → t.cnt + 1 < t.max)
  | .remove base size => t.cnt < t.max ∧
      ∀ i < t.cnt, (t.regions i).base < base → base + size < Region.last (t.regions i) →
        t.cnt + 1 < t.max

/-- The range can be stored over the stale first entry of an emptied table. -/
def Refillable (t : MemblockType) (base size : ℕ) : Prop :=
  t.cnt ≠ 0 ∨ memblockRegionsAdjacent t 0 1 = 0 ∧
    (base < (t.regions 0).base ∨ t.regions 0 = ⟨base, size⟩)

/-- An insertion does not meet the stale entries of an emptied table. -/
def AvoidsStale (t : MemblockType) : TableOp → Prop
  | .add base size => Refillable t base size
  | .remove _ _ => True

/-- After every part of the run the table is coalesced and describes the set computed. -/
def TracksBytes (depth : ℕ) (id : TableId) (ops : List TableOp) : Prop :=
  ∀ done rest, ops = done ++ rest → ∃ m, exec (perform depth id) memblockInit done = some m ∧
    Spaced 1 (m.table id) ∧ bytes (m.table id) = done.foldl describe ∅

variable {d : TableId → Memblock → Option (ℤ × Memblock)} {id : TableId} {m : Memblock}
  {gap base size : ℕ} {t : MemblockType}

/-- An emptied table after an insertion: the stale first entry, unless the range is below it. -/
def refilled (t : MemblockType) (base size : ℕ) : MemblockType :=
  { t with
    regions := if base < (t.regions 0).base then Function.update t.regions 0 ⟨base, size⟩
      else t.regions
    cnt := 1 }

/-- A refilled table that shows the range describes exactly the range. -/
theorem refilled_becomes (h : Spaced gap t) (hpos : 0 < t.max)
    (hor : base < (t.regions 0).base ∨ t.regions 0 = ⟨base, size⟩) (hlast : base + size < 2 ^ 32) :
    Becomes gap t (refilled t base size) (Set.Ico base (base + size)) := by
  have hr : (refilled t base size).regions 0 = ⟨base, size⟩ := by
    dsimp only [refilled]
    by_cases hlt : base < (t.regions 0).base
    · rw [if_pos hlt, Function.update_self]
    · rw [if_neg hlt]
      exact hor.resolve_left hlt
  have hzero : ∀ i < (refilled t base size).cnt, i = 0 := fun i hi => Nat.lt_one_iff.mp hi
  refine ⟨⟨hpos, h.max_le, h.room_lt, fun i hi => ?_, fun i _ hne => absurd rfl hne,
    fun i hi => ?_⟩, ?_, Nat.succ_le_succ (Nat.zero_le _), rfl, rfl, rfl⟩
  · rw [hzero i hi, hr]
    exact hlast
  · have := hzero _ hi
    omega
  · ext a
    simp only [bytes, Set.mem_ofPred_eq, Set.mem_Ico]
    constructor
    · rintro ⟨i, hi, ha⟩
      rw [hzero i hi, hr] at ha
      exact ha
    · intro ha
      refine ⟨0, Nat.zero_lt_one, ?_⟩
      rw [hr]
      exact ha

/-- The insertion into an emptied table whose stale first two entries are not adjacent. -/
theorem addRegion_emptied (ht : m.table id = t) (hc : t.cnt = 0) (hpos : 1 < t.max)
    (hadj : memblockRegionsAdjacent t 0 1 = 0) :
    memblockAddRegionWith d id base size m = some (0, m.setTable id (refilled t base size)) := by
  have hset : m.setTable id t = m := by rw [← ht, Memblock.setTable_table]
  have hins : insertRegion t base size = refilled t base size := by
    rw [insertRegion, hc]
    rfl
  rw [memblockAddRegionWith]
  dsimp only
  rw [ht, hc, if_neg (by omega), coalesceScan]
  dsimp only
  rw [if_neg (fun h => h.2 hadj), if_neg (by decide), if_neg (by omega), hins]
  have hfull : ¬ (refilled t base size).cnt = (refilled t base size).max := by
    dsimp only [refilled]
    omega
  rw [if_neg hfull]

/-- Storing a range in an emptied table works exactly when the stale entry is overwritten
or happens to be the range itself. -/
theorem emptied_becomes_iff (h : Spaced gap t) (ht : m.table id = t) (hc : t.cnt = 0)
    (hpos : 1 < t.max) (hadj : memblockRegionsAdjacent t 0 1 = 0)
    (hstale : 0 < (t.regions 0).size) (hsize : 0 < size) (hlast : base + size < 2 ^ 32) :
    (∃ m', memblockAddRegionWith d id base size m = some (0, m') ∧
      Becomes gap t (m'.table id) (Set.Ico base (base + size))) ↔
    base < (t.regions 0).base ∨ t.regions 0 = ⟨base, size⟩ := by
  rw [addRegion_emptied ht hc hpos hadj]
  constructor
  · rintro ⟨m', hm, -, hb, -, -, -⟩
    cases hm
    rw [Memblock.table_setTable] at hb
    by_contra hn
    push Not at hn
    obtain ⟨hle, hne⟩ := hn
    rw [refilled, if_neg (by omega)] at hb
    have hmem : ∀ a, (base ≤ a ∧ a < base + size) ↔
        (t.regions 0).base ≤ a ∧ a < Region.last (t.regions 0) := fun a => by
      have ha := Set.ext_iff.mp hb a
      simp only [bytes, Set.mem_ofPred_eq, Set.mem_Ico] at ha
      rw [← ha]
      constructor
      · rintro ⟨i, hi, hx⟩
        have hz : i = 0 := by omega
        rwa [hz] at hx
      · exact fun hx => ⟨0, by omega, hx⟩
    have hb0 := (hmem base).mp ⟨le_refl _, by omega⟩
    have hb1 := (hmem (t.regions 0).base).mpr ⟨le_refl _, Nat.lt_add_of_pos_right hstale⟩
    have he0 := (hmem (base + size - 1)).mp ⟨by omega, by omega⟩
    have he1 := (hmem (Region.last (t.regions 0) - 1)).mpr ⟨by rw [Region.last]; omega,
      by rw [Region.last]; omega⟩
    refine hne ?_
    cases hr : t.regions 0 with
    | mk b s =>
      rw [hr] at hb0 hb1 he0 he1 hstale
      rw [Region.last] at hb0 he0 he1
      dsimp only at hb0 hb1 he0 he1 hstale
      rw [Region.mk.injEq]
      exact ⟨by omega, by omega⟩
  · intro hor
    refine ⟨_, rfl, ?_⟩
    rw [Memblock.table_setTable]
    exact refilled_becomes h (by omega) hor hlast

/-- An insertion that avoids stale entries adds its range. -/
theorem add_tracks (h : Spaced 1 (m.table id)) (hlegal : Legal (m.table id) (.add base size))
    (hfull : NotFull (m.table id) (.add base size)) (hstale : Refillable (m.table id) base size) :
    ∃ ret m', memblockAddRegionWith d id base size m = some (ret, m') ∧
      Spaced 1 (m'.table id) ∧
      bytes (m'.table id) = bytes (m.table id) ∪ Set.Ico base (base + size) := by
  obtain ⟨hsize, hlast, hnew⟩ := hlegal
  by_cases hc : (m.table id).cnt = 0
  · obtain ⟨hadj, hor⟩ := hstale.resolve_left (fun hne => hne hc)
    have hmax : 1 < (m.table id).max := by
      have := hfull.2 (fun hd => by have := hd.1; omega) (fun k hk => by omega)
      omega
    rw [addRegion_emptied rfl hc hmax hadj, bytes_emptied hc, Set.empty_union]
    have hb := refilled_becomes h (by omega) hor hlast
    refine ⟨_, _, rfl, ?_⟩
    rw [Memblock.table_setTable]
    exact ⟨hb.spaced, hb.bytes_eq⟩
  · by_cases hd : IsDummy (m.table id)
    · have hb := setRegion_dummy h hd base size 1 hlast
      rw [addRegion_dummy hd, bytes_dummy hd, Set.empty_union]
      refine ⟨_, _, rfl, ?_⟩
      rw [Memblock.table_setTable]
      exact ⟨hb.spaced, hb.bytes_eq⟩
    · rcases hnew with ⟨i, hi, heq⟩ | hdis
      · rw [addRegion_stored rfl h hsize hlast hi heq]
        refine ⟨_, _, rfl, h, ?_⟩
        rw [Set.union_eq_self_of_subset_right]
        intro a ha
        exact ⟨i, hi, by rw [heq]; exact ha⟩
      · have hclear := clear_of_disjoint h hd hsize hdis
        obtain ⟨ret, t', -, he, hb⟩ := addRegion_clear (d := d) rfl h (le_refl 1) (by omega) hd hsize
          hlast hclear (hfull.2 hd)
        refine ⟨ret, _, he, ?_⟩
        rw [Memblock.table_setTable]
        exact ⟨hb.spaced, hb.bytes_eq⟩

/-- A removal within one entry subtracts its range. -/
theorem remove_tracks (h : Spaced 1 (m.table id)) (hlegal : Legal (m.table id) (.remove base size))
    (hfull : NotFull (m.table id) (.remove base size)) :
    ∃ ret m', memblockRemoveWith (memblockAddRegionWith d) id base size m = some (ret, m') ∧
      Spaced 1 (m'.table id) ∧
      bytes (m'.table id) = bytes (m.table id) \ Set.Ico base (base + size) := by
  obtain ⟨hsize, i, hi, hin⟩ := hlegal
  obtain ⟨ret, t', -, he, hb⟩ := remove_within (d := d) rfl h (le_refl 1) hsize hi hin (hfull.2 i hi)
  refine ⟨ret, _, he, ?_⟩
  rw [Memblock.table_setTable]
  exact ⟨hb.spaced, hb.bytes_eq⟩

/-- One update refines its meaning on sets of addresses. -/
theorem perform_tracks (depth : ℕ) {op : TableOp} (h : Spaced 1 (m.table id))
    (hlegal : Legal (m.table id) op) (hfull : NotFull (m.table id) op)
    (hstale : AvoidsStale (m.table id) op) :
    ∃ m', perform depth id m op = some m' ∧ Spaced 1 (m'.table id) ∧
      bytes (m'.table id) = describe (bytes (m.table id)) op := by
  cases op with
  | add base size =>
    obtain ⟨ret, m', he, hs, hb⟩ := add_tracks (d := memblockDoubleArray depth) h hlegal
      hfull hstale
    exact ⟨m', by rw [perform, memblockAddRegion, he]; rfl, hs, hb⟩
  | remove base size =>
    obtain ⟨ret, m', he, hs, hb⟩ := remove_tracks (d := memblockDoubleArray depth) h hlegal
      hfull
    exact ⟨m', by rw [perform, memblockRemove, memblockAddRegion, he]; rfl, hs, hb⟩

/-- Over every run that never fills the table and never meets stale entries, the table
stays coalesced and describes exactly the set of addresses computed. -/
theorem history_tracksBytes (depth : ℕ) (id : TableId) (ops : List TableOp)
    (hrun : Admissible (perform depth id) (fun m op => Legal (m.table id) op ∧
      NotFull (m.table id) op ∧ AvoidsStale (m.table id) op) memblockInit ops) :
    TracksBytes depth id ops := by
  intro done rest hops
  rw [hops] at hrun
  obtain ⟨m, he, hs, hb⟩ := exec_refines
    describe (fun m covered => Spaced 1 (m.table id) ∧ bytes (m.table id) = covered)
    (fun m covered op hm hok => by
      obtain ⟨m', he, hs, hb⟩ := perform_tracks depth hm.1 hok.1 hok.2.1 hok.2.2
      exact ⟨m', he, hs, by rw [hb, hm.2]⟩)
    (memblockInit_table id) hrun.prefix
  exact ⟨m, he, hs, hb⟩

/-- The fields of the memory table that short runs depend on. -/
def view (m : Memblock) : ℕ × ℕ × Region :=
  (m.memory.cnt, m.memory.max, m.memory.regions 0)

/-- The view after a step is the one computed. -/
theorem view_of_step {op : TableOp} {m' : Memblock} {v : ℕ × ℕ × Region}
    (hv : (perform 1 .memory m op).map view = some v) (he : perform 1 .memory m op = some m') :
    view m' = v := by
  rw [he] at hv
  exact Option.some.inj hv

/-- The first insertion after `memblock_init` is always allowed. -/
theorem first_add_allowed (base size : ℕ) (hsize : 0 < size) (hlast : base + size < 2 ^ 32) :
    Legal (memblockInit.table .memory) (.add base size) ∧
      NotFull (memblockInit.table .memory) (.add base size) ∧
      AvoidsStale (memblockInit.table .memory) (.add base size) := by
  have hd : IsDummy (memblockInit.table .memory) := ⟨rfl, by decide⟩
  refine ⟨⟨hsize, hlast, Or.inr ?_⟩, ⟨by decide, fun hn => absurd hd hn⟩, Or.inl (by decide)⟩
  rw [bytes_dummy hd]
  exact Set.empty_disjoint _

/-- A removal within the only entry is allowed. -/
theorem single_remove_allowed {r : Region} (base size : ℕ)
    (hv : view m = (1, initMemblockRegions, r)) (hsize : 0 < size) (hlo : r.base ≤ base) (hhi : base + size ≤ Region.last r) :
    Legal (m.table .memory) (.remove base size) ∧ NotFull (m.table .memory) (.remove base size) := by
  obtain ⟨hc, hm, hr⟩ : m.memory.cnt = 1 ∧ m.memory.max = 128 ∧ m.memory.regions 0 = r := by
    simpa only [view, Prod.mk.injEq, initMemblockRegions] using hv
  refine ⟨⟨hsize, 0, by rw [Memblock.table]; omega, ?_⟩, ?_, fun _ _ _ _ => ?_⟩
  · rw [Within, Memblock.table, hr]
    exact ⟨hlo, hhi⟩
  all_goals
    rw [Memblock.table]
    omega

/-- Inserting a range and splitting it. -/
theorem history_tracksBytes_split :
    TracksBytes 1 .memory [.add 4096 12288, .remove 8192 4096] := by
  refine history_tracksBytes 1 .memory _
    ⟨first_add_allowed 4096 12288 (by decide) (by decide), fun m1 h1 => ⟨?_, fun _ _ => trivial⟩⟩
  have hv : view m1 = (1, initMemblockRegions, ⟨4096, 12288⟩) := view_of_step (by decide) h1
  have ha := single_remove_allowed 8192 4096 hv (by decide) (by decide)
    (by decide)
  exact ⟨ha.1, ha.2, trivial⟩

/-- A run that empties the table and refills it above the stale entry. -/
def refillAbove : List TableOp := [.add 4096 4096, .remove 4096 4096, .add 12288 4096]

/-- The refilled table describes the range removed before instead of the one inserted. -/
theorem refillAbove_counterexample :
    Admissible (perform 1 .memory)
      (fun m op => Legal (m.table .memory) op ∧ NotFull (m.table .memory) op)
      memblockInit refillAbove ∧ ¬ TracksBytes 1 .memory refillAbove := by
  constructor
  · have hfirst := first_add_allowed 4096 4096 (by decide) (by decide)
    refine ⟨⟨hfirst.1, hfirst.2.1⟩, fun m1 h1 => ⟨?_, fun m2 h2 => ⟨?_, fun _ _ => trivial⟩⟩⟩
    · have hv : view m1 = (1, initMemblockRegions, ⟨4096, 4096⟩) := view_of_step (by decide) h1
      exact single_remove_allowed 4096 4096 hv (by decide) (by decide) (by decide)
    · have h12 : exec (perform 1 .memory) memblockInit [.add 4096 4096, .remove 4096 4096] =
          some m2 := by
        rw [exec, h1, Option.bind_some, exec, h2]
        rfl
      have hv : (exec (perform 1 .memory) memblockInit
          [.add 4096 4096, .remove 4096 4096]).map view = some (0, 128, ⟨4096, 4096⟩) := by decide
      rw [h12, Option.map_some, Option.some.injEq] at hv
      obtain ⟨hc, hm, -⟩ : m2.memory.cnt = 0 ∧ m2.memory.max = 128 ∧
          m2.memory.regions 0 = ⟨4096, 4096⟩ := by
        simpa only [view, Prod.mk.injEq] using hv
      refine ⟨⟨by decide, by decide, Or.inr ?_⟩, ?_, fun _ _ => ?_⟩
      · rw [bytes_emptied (t := m2.table .memory) hc]
        exact Set.empty_disjoint _
      all_goals
        rw [Memblock.table]
        omega
  · intro h
    obtain ⟨m, he, -, hb⟩ := h refillAbove [] (List.append_nil _).symm
    have hv : (exec (perform 1 .memory) memblockInit refillAbove).map view =
        some (1, 128, ⟨4096, 4096⟩) := by decide
    rw [he, Option.map_some, Option.some.injEq] at hv
    obtain ⟨hc, -, hr⟩ : m.memory.cnt = 1 ∧ m.memory.max = 128 ∧
        m.memory.regions 0 = ⟨4096, 4096⟩ := by
      simpa only [view, Prod.mk.injEq] using hv
    have hin : 4096 ∈ bytes (m.table .memory) := by
      refine ⟨0, by rw [Memblock.table]; omega, ?_⟩
      rw [Memblock.table, hr]
      decide
    rw [hb] at hin
    simp only [refillAbove, List.foldl_cons, List.foldl_nil, describe, Set.mem_union,
      Set.mem_sdiff, Set.mem_empty_iff_false, Set.mem_Ico] at hin
    omega

end BiscuitOS.MemblockHistory
