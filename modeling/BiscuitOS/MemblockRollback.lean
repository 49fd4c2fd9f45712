import BiscuitOS.MemblockUpdate

/-!
# What a failing update leaves behind

A failed insertion is undone by decrementing the count and a failed split is
not undone at all. The lemmas decide for every table and range whether an
update that reports an error has kept the described bytes.
-/

namespace BiscuitOS.MemblockRollback

open MachineWord MemblockModel MemblockTable MemblockUpdate

/-- An update that reports an error leaves the described bytes as they were. -/
def KeepsBytes (id : TableId) (m : Memblock) (result : Option (ℤ × Memblock)) : Prop :=
  ∀ m', result = some (-1, m') → bytes (m'.table id) = bytes (m.table id)

/-- Doubling is not allowed yet, or there is no room for the new array. -/
def DoublingFails (id : TableId) (m : Memblock) : Prop :=
  m.canResize = false ∨ newArrayAddr id m = some memblockError

/-- The range is inserted below the last entry, and does not merely restate stored bytes
that include all of that entry. -/
def DropsLast (t : MemblockType) (base size : ℕ) : Prop :=
  base < (t.regions (t.cnt - 1)).base ∧
    ¬ (Region.last (t.regions (t.cnt - 1)) ≤ base + size ∧
      Set.Ico base (base + size) ⊆ bytes t)

/-- The range touches no entry, takes the last free one and the table cannot be doubled,
while the entry that the undoing drops is not the new one. -/
def AddLoses (id : TableId) (base size : ℕ) (m : Memblock) : Prop :=
  (m.table id).cnt ≠ 0 ∧ ¬ IsDummy (m.table id) ∧
    (∀ k < (m.table id).cnt, Untouched (m.table id) base size k) ∧
    (m.table id).cnt + 1 = (m.table id).max ∧
    DoublingFails id (m.setTable id (insertRegion (m.table id) base size)) ∧
    DropsLast (m.table id) base size

/-- The insertion of the tail behind a hole in entry `i` fails. -/
def TailFails (id : TableId) (base size i : ℕ) (m : Memblock) : Prop :=
  (m.table id).max ≤ (m.table id).cnt ∨ (m.table id).cnt + 1 = (m.table id).max ∧
    DoublingFails id (m.setTable id (insertRegion (shortened (m.table id) base i) (base + size)
      (Region.last ((m.table id).regions i) - (base + size))))

/-- The range is a hole in an entry that does not touch its successor, and the tail behind the
hole cannot be stored. -/
def RemoveLoses (id : TableId) (base size : ℕ) (m : Memblock) : Prop :=
  0 < size ∧ ∃ i < (m.table id).cnt, ((m.table id).regions i).base < base ∧
    base + size < Region.last ((m.table id).regions i) ∧
    (i + 1 < (m.table id).cnt →
      Region.last ((m.table id).regions i) ≠ ((m.table id).regions (i + 1)).base) ∧
    TailFails id base size i m

/-- The table after a failed doubling: the inserted range stays, the last entry goes. -/
def undone (t : MemblockType) (base size : ℕ) : MemblockType :=
  { insertRegion t base size with cnt := t.cnt }

variable {id : TableId} {m m' : Memblock} {gap base size depth : ℕ} {t : MemblockType}

/-- A doubling that does not report success has left the tables alone. -/
theorem doubleArray_fails {ret : ℤ} (he : memblockDoubleArray (depth + 1) id m = some (ret, m'))
    (hret : ret ≠ 0) : DoublingFails id m ∧ m' = m := by
  rw [memblockDoubleArray, memblockDoubleArrayWith] at he
  by_cases hr : m.canResize = false
  · rw [if_pos hr, Option.some.injEq, Prod.mk.injEq] at he
    exact ⟨Or.inl hr, he.2.symm⟩
  · rw [if_neg hr] at he
    dsimp only at he
    cases ha : newArrayAddr id m with
    | none =>
      rw [ha, Option.bind_none] at he
      cases he
    | some addr =>
      rw [ha, Option.bind_some] at he
      by_cases hz : addr = memblockError
      · rw [if_pos hz, Option.some.injEq, Prod.mk.injEq] at he
        exact ⟨Or.inr (by rw [ha, hz]), he.2.symm⟩
      · rw [if_neg hz, Option.bind_eq_some_iff] at he
        obtain ⟨m2, -, he⟩ := he
        cases harr : (m.table id).array with
        | none =>
          rw [harr] at he
          cases he
          exact absurd rfl hret
        | some old =>
          rw [harr] at he
          dsimp only at he
          rw [Option.map_eq_some_iff] at he
          obtain ⟨x, -, hx⟩ := he
          cases hx
          exact absurd rfl hret

/-- A doubling that cannot succeed answers an error. -/
theorem doubleArray_of_fails (h : DoublingFails id m) :
    memblockDoubleArray (depth + 1) id m = some (-1, m) := by
  rw [memblockDoubleArray, memblockDoubleArrayWith]
  by_cases hr : m.canResize = false
  · rw [if_pos hr]
  · rw [if_neg hr, h.resolve_left hr]
    rfl

/-- The error paths of an insertion into a table in use. -/
theorem add_fails_iff (depth : ℕ) (m' : Memblock) (base size : ℕ) (h : Spaced gap (m.table id))
    (hc : (m.table id).cnt ≠ 0) (hlast : base + size < 2 ^ 32) :
    memblockAddRegion (depth + 1) id base size m = some (-1, m') ↔
      ¬ IsDummy (m.table id) ∧
      (∀ k < (m.table id).cnt, Untouched (m.table id) base size k) ∧
      ((m.table id).max ≤ (m.table id).cnt ∧ m' = m ∨
        (m.table id).cnt + 1 = (m.table id).max ∧
          DoublingFails id (m.setTable id (insertRegion (m.table id) base size)) ∧
          m' = m.setTable id (undone (m.table id) base size)) := by
  have hcnt : (m.table id).cnt < 2 ^ 32 :=
    lt_of_le_of_lt (h.cnt_le.trans h.max_le) h.room_lt
  have hundo : wrapSub 64 (insertRegion (m.table id) base size).cnt 1 = (m.table id).cnt := by
    have hins : (insertRegion (m.table id) base size).cnt = (m.table id).cnt + 1 :=
      wrap_of_lt (by omega)
    rw [hins, wrapSub_of_le (by omega) (by omega), Nat.add_sub_cancel]
  have hundone : { insertRegion (m.table id) base size with
      cnt := wrapSub 64 (insertRegion (m.table id) base size).cnt 1 } =
      undone (m.table id) base size := by
    rw [hundo, undone]
  constructor
  · intro he
    by_cases hd : IsDummy (m.table id)
    · rw [memblockAddRegion, addRegion_dummy hd] at he
      cases he
    · refine ⟨hd, ?_⟩
      by_cases hall : ∀ k < (m.table id).cnt, Untouched (m.table id) base size k
      · refine ⟨hall, ?_⟩
        rw [memblockAddRegion, addRegion_untouched rfl h (by omega) hd hlast hall] at he
        by_cases hfull : (m.table id).max ≤ (m.table id).cnt
        · rw [if_pos hfull] at he
          cases he
          exact Or.inl ⟨hfull, rfl⟩
        · rw [if_neg hfull] at he
          by_cases hmax : (m.table id).cnt + 1 = (m.table id).max
          · rw [if_pos hmax, Option.map_eq_some_iff] at he
            obtain ⟨⟨ret, m3⟩, hdbl, hm⟩ := he
            dsimp only at hm
            by_cases hret : ret = 0
            · rw [if_neg (not_not.mpr hret)] at hm
              cases hm
            · rw [if_pos hret, Prod.mk.injEq] at hm
              obtain ⟨hfails, heq⟩ := doubleArray_fails hdbl hret
              refine Or.inr ⟨hmax, hfails, ?_⟩
              rw [← hm.2, heq, Memblock.table_setTable, Memblock.setTable_setTable, hundone]
          · rw [if_neg hmax] at he
            cases he
      · exfalso
        rw [memblockAddRegion, memblockAddRegionWith] at he
        unfold IsDummy at hd
        dsimp only at he
        rw [if_neg hd] at he
        have hstop : ∀ t1 j, coalesceScan (m.table id) base size 0 (m.table id).cnt =
            .stopped t1 j 1 → False := fun t1 j hscan => by
          rw [hscan] at he
          dsimp only at he
          by_cases hplug : j < wrapSub 64 t1.cnt 1 ∧ memblockRegionsAdjacent t1 j (j + 1) ≠ 0
          · rw [if_pos hplug, Option.map_eq_some_iff] at he
            obtain ⟨t2, -, hm⟩ := he
            cases hm
          · rw [if_neg hplug, if_pos (by decide)] at he
            cases he
        rcases coalesceScan_cases h.fits hlast (m.table id).cnt 0 (Nat.zero_add _)
            (fun _ hj => by omega) with
          ⟨j, -, -, hscan⟩ | ⟨j, -, -, -, hscan⟩ | ⟨j, -, -, -, hscan⟩ | ⟨hun, -⟩
        · rw [hscan] at he
          cases he
        · exact hstop _ _ hscan
        · exact hstop _ _ hscan
        · exact hall hun
  · rintro ⟨hd, hall, hor⟩
    rw [memblockAddRegion, addRegion_untouched rfl h (by omega) hd hlast hall]
    rcases hor with ⟨hfull, rfl⟩ | ⟨hmax, hfails, rfl⟩
    · rw [if_pos hfull]
    · rw [if_neg (by omega), if_pos hmax, doubleArray_of_fails hfails, Option.map_some]
      dsimp only
      rw [if_pos (by decide), Memblock.table_setTable, Memblock.setTable_setTable, hundone]

/-- A failing insertion into an emptied table leaves it empty. -/
theorem add_fails_emptied (hc : (m.table id).cnt = 0)
    (he : memblockAddRegion (depth + 1) id base size m = some (-1, m')) :
    (m'.table id).cnt = 0 := by
  rw [memblockAddRegion, memblockAddRegionWith] at he
  dsimp only at he
  rw [hc, if_neg (by omega), coalesceScan] at he
  dsimp only at he
  rw [hc] at he
  by_cases hplug : 0 < wrapSub 64 0 1 ∧ memblockRegionsAdjacent (m.table id) 0 (0 + 1) ≠ 0
  · rw [if_pos hplug, Option.map_eq_some_iff] at he
    obtain ⟨t2, -, hm⟩ := he
    cases hm
  · rw [if_neg hplug, if_neg (by decide), Memblock.setTable_table] at he
    by_cases hmax : (m.table id).max ≤ 0
    · rw [if_pos hmax] at he
      cases he
      exact hc
    · have hins : (insertRegion (m.table id) base size).cnt = 1 := by
        rw [insertRegion, hc]
        rfl
      rw [if_neg hmax] at he
      by_cases hfull : (insertRegion (m.table id) base size).cnt =
          (insertRegion (m.table id) base size).max
      · rw [if_pos hfull, Option.map_eq_some_iff] at he
        obtain ⟨⟨ret, m3⟩, hdbl, hm⟩ := he
        dsimp only at hm
        by_cases hret : ret = 0
        · rw [if_neg (not_not.mpr hret)] at hm
          cases hm
        · obtain ⟨-, heq⟩ := doubleArray_fails hdbl hret
          rw [if_pos hret, heq, Memblock.table_setTable, Memblock.setTable_setTable,
            Prod.mk.injEq] at hm
          rw [← hm.2, Memblock.table_setTable]
          dsimp only
          rw [hins]
          decide
      · rw [if_neg hfull] at he
        cases he

/-- The bytes described after the undoing. -/
theorem bytes_undone (h : Spaced gap t) (hc : 0 < t.cnt) (base size : ℕ) :
    bytes (undone t base size) ⊆ bytes t ∪ Set.Ico base (base + size) ∧
    ((t.regions (t.cnt - 1)).base ≤ base → bytes (undone t base size) = bytes t) ∧
    (base < (t.regions (t.cnt - 1)).base → ∀ a, a ∈ bytes (undone t base size) ↔
      (∃ i < t.cnt - 1, (t.regions i).base ≤ a ∧ a < Region.last (t.regions i)) ∨
        a ∈ Set.Ico base (base + size)) := by
  obtain ⟨p, hp, hbelow, habove, he⟩ := insertRegion_eq h hc base size
  have hmem : ∀ a, a ∈ bytes (undone t base size) ↔
      (∃ i < t.cnt, (i < p ∨ i + 1 < t.cnt) ∧
        (t.regions i).base ≤ a ∧ a < Region.last (t.regions i)) ∨
      (p < t.cnt ∧ a ∈ Set.Ico base (base + size)) := fun a => by
    rw [undone, he]
    simp only [bytes, Set.mem_ofPred_eq, Set.mem_Ico]
    constructor
    · rintro ⟨i, hi, ha⟩
      by_cases h1 : i < p
      · rw [if_pos (Or.inl h1)] at ha
        exact Or.inl ⟨i, hi, Or.inl h1, ha⟩
      · rw [if_neg (by omega)] at ha
        by_cases h2 : i = p
        · rw [if_pos h2] at ha
          exact Or.inr ⟨by omega, ha⟩
        · rw [if_neg h2] at ha
          exact Or.inl ⟨i - 1, by omega, by omega, ha⟩
    · rintro (⟨i, hi, hor, ha⟩ | ⟨hpc, ha⟩)
      · by_cases h1 : i < p
        · exact ⟨i, hi, by rwa [if_pos (Or.inl h1)]⟩
        · refine ⟨i + 1, by omega, ?_⟩
          rwa [if_neg (by omega), if_neg (by omega)]
      · exact ⟨p, hpc, by rwa [if_neg (by omega), if_pos rfl]⟩
  refine ⟨fun a ha => ?_, fun hle => ?_, fun hlt a => ?_⟩
  · rcases (hmem a).mp ha with ⟨i, hi, -, hin⟩ | ⟨-, hin⟩
    · exact Or.inl ⟨i, hi, hin⟩
    · exact Or.inr hin
  · have hpc : p = t.cnt := by
      by_contra hne
      have := habove (t.cnt - 1) (by omega) (by omega)
      omega
    ext a
    rw [hmem a]
    constructor
    · rintro (⟨i, hi, -, hin⟩ | ⟨hlt, -⟩)
      · exact ⟨i, hi, hin⟩
      · omega
    · rintro ⟨i, hi, hin⟩
      exact Or.inl ⟨i, hi, Or.inl (by omega), hin⟩
  · have hpc : p < t.cnt := by
      by_contra hne
      have := hbelow (t.cnt - 1) (by omega) (by omega)
      omega
    rw [hmem a]
    constructor
    · rintro (⟨i, hi, hor, hin⟩ | ⟨-, hin⟩)
      · exact Or.inl ⟨i, by omega, hin⟩
      · exact Or.inr hin
    · rintro (⟨i, hi, hin⟩ | hin)
      · exact Or.inl ⟨i, by omega, by omega, hin⟩
      · exact Or.inr ⟨hpc, hin⟩

/-- The undoing keeps the bytes exactly when it does not drop a needed last entry. -/
theorem undone_keeps_iff (h : Spaced gap t) (hc : 0 < t.cnt) (hd : ¬ IsDummy t) :
    bytes (undone t base size) = bytes t ↔ ¬ DropsLast t base size := by
  obtain ⟨-, hkeep, hdrop⟩ := bytes_undone h hc base size
  have hfull := h.full hd (show t.cnt - 1 < t.cnt by omega)
  have hlast : (t.regions (t.cnt - 1)).base < Region.last (t.regions (t.cnt - 1)) :=
    Nat.lt_add_of_pos_right hfull
  rw [DropsLast]
  by_cases hlt : base < (t.regions (t.cnt - 1)).base
  · have hmem := hdrop hlt
    constructor
    · rintro heq ⟨-, hn⟩
      refine hn ⟨?_, fun a ha => ?_⟩
      · have hin : Region.last (t.regions (t.cnt - 1)) - 1 ∈ bytes (undone t base size) := by
          rw [heq]
          exact ⟨t.cnt - 1, by omega, by omega, by omega⟩
        rcases (hmem _).mp hin with ⟨i, hi, hin⟩ | hin
        · have hp := h.apart_lt hi (show t.cnt - 1 < t.cnt by omega)
          omega
        · rw [Set.mem_Ico] at hin
          omega
      · rw [← heq]
        exact (hmem a).mpr (Or.inr ha)
    · intro hn
      have hcover : Region.last (t.regions (t.cnt - 1)) ≤ base + size ∧
          Set.Ico base (base + size) ⊆ bytes t := by
        by_contra hc
        exact hn ⟨hlt, hc⟩
      ext a
      rw [hmem a]
      constructor
      · rintro (⟨i, hi, hin⟩ | hin)
        · exact ⟨i, by omega, hin⟩
        · exact hcover.2 hin
      · rintro ⟨i, hi, hin⟩
        by_cases hl : i = t.cnt - 1
        · subst hl
          exact Or.inr (Set.mem_Ico.mpr ⟨by omega, by omega⟩)
        · exact Or.inl ⟨i, by omega, hin⟩
  · exact ⟨fun _ hdl => hlt hdl.1, fun _ => hkeep (Nat.le_of_not_lt hlt)⟩

/-- A failing insertion keeps the bytes exactly when it does not meet the wrong undoing. -/
theorem add_keeps_iff (h : Spaced gap (m.table id)) (hlast : base + size < 2 ^ 32) :
    KeepsBytes id m (memblockAddRegion (depth + 1) id base size m) ↔
      ¬ AddLoses id base size m := by
  by_cases hc : (m.table id).cnt = 0
  · refine ⟨fun _ hl => hl.1 hc, fun _ m' he => ?_⟩
    rw [bytes_emptied (add_fails_emptied hc he), bytes_emptied hc]
  · constructor
    · rintro hkeep ⟨-, hd, hall, hmax, hfails, hdrop⟩
      have he := (add_fails_iff depth _ base size h hc hlast).mpr
        ⟨hd, hall, Or.inr ⟨hmax, hfails, rfl⟩⟩
      have hb := hkeep _ he
      rw [Memblock.table_setTable] at hb
      exact (undone_keeps_iff h (by omega) hd).mp hb hdrop
    · intro hn m' he
      obtain ⟨hd, hall, hor⟩ := (add_fails_iff depth _ base size h hc hlast).mp he
      rcases hor with ⟨-, rfl⟩ | ⟨hmax, hfails, rfl⟩
      · rfl
      · rw [Memblock.table_setTable]
        exact (undone_keeps_iff h (by omega) hd).mpr fun hdrop =>
          hn ⟨hc, hd, hall, hmax, hfails, hdrop⟩

/-- The tail touches an entry of the shortened table exactly when the entry touched its
successor. -/
theorem tail_untouched_iff (h : Spaced gap t) (hsize : 0 < size) {i : ℕ} (hi : i < t.cnt)
    (hlo : (t.regions i).base < base) (hhi : base + size < Region.last (t.regions i)) :
    (∀ k < (shortened t base i).cnt, Untouched (shortened t base i) (base + size)
      (Region.last (t.regions i) - (base + size)) k) ↔
    (i + 1 < t.cnt → Region.last (t.regions i) ≠ (t.regions (i + 1)).base) := by
  have hspan : base + size + (Region.last (t.regions i) - (base + size)) =
      Region.last (t.regions i) := by omega
  have hd : ¬ IsDummy t := fun hd => by
    have hz : i = 0 := by
      have := hd.1
      omega
    have hs := hd.2
    rw [← hz] at hs
    rw [Region.last] at hhi
    omega
  constructor
  · intro hall hn heq
    obtain ⟨-, hne, -⟩ := hall (i + 1) hn
    rw [shortened, t.setRegion_other (by omega), hspan] at hne
    exact hne heq.symm
  · intro hnext k hk
    rw [shortened, MemblockType.setRegion_cnt] at hk
    rw [Untouched, shortened, hspan]
    rcases Nat.lt_trichotomy k i with hlt | heq | hgt
    · have hp := h.apart_lt hlt hi
      have hf : (t.regions k).base ≤ Region.last (t.regions k) := Nat.le_add_right _ _
      rw [t.setRegion_other (by omega)]
      refine ⟨fun he => ?_, by omega, by omega⟩
      rw [he] at hf hp
      dsimp only at hf
      omega
    · subst heq
      rw [t.setRegion_self]
      refine ⟨fun he => ?_, ?_, ?_⟩
      · rw [Region.mk.injEq] at he
        omega
      · dsimp only
        omega
      · dsimp only [Region.last]
        omega
    · have hp := h.apart_lt hgt hk
      have hf := h.full hd hk
      have hfi := h.full hd (show i + 1 < t.cnt by omega)
      have hbase : (t.regions k).base ≠ Region.last (t.regions i) := by
        by_cases hs : k = i + 1
        · subst hs
          exact fun he => hnext hk he.symm
        · have hp1 := h.apart_lt (show i < i + 1 by omega) (show i + 1 < t.cnt by omega)
          have hp2 := h.apart_lt (show i + 1 < k by omega) hk
          rw [Region.last] at hp2
          omega
      rw [t.setRegion_other (by omega)]
      refine ⟨fun he => ?_, hbase, ?_⟩
      · rw [he] at hp
        dsimp only at hp
        omega
      · rw [Region.last]
        omega

/-- The empty removal never reports an error after changing the table. -/
theorem remove_empty_keeps (h : Spaced gap (m.table id)) (hlast : base < 2 ^ 32) :
    KeepsBytes id m (memblockRemove (depth + 1) id base 0 m) := by
  intro m' he
  by_cases hout : ∀ j < (m.table id).cnt, ¬ Within (m.table id) base 0 j
  · rw [memblockRemove, remove_outside h.fits hlast hout] at he
    cases he
    rfl
  · exfalso
    have hex : ∃ j, j < (m.table id).cnt ∧ Within (m.table id) base 0 j := by
      push Not at hout
      exact hout
    classical
    have hi := (Nat.find_spec hex).1
    have hin := (Nat.find_spec hex).2
    have hfirst : ∀ j < Nat.find hex, ¬ Within (m.table id) base 0 j := fun j hj hw =>
      Nat.find_min hex hj ⟨by omega, hw⟩
    generalize Nat.find hex = i at hi hin hfirst
    have hfound := containingFrom_eq h.fits hi hin hfirst _ 0 (Nat.zero_add _) (Nat.zero_le _)
    rw [memblockRemove, remove_found rfl h hlast hi hfound] at he
    by_cases hwhole : ((m.table id).regions i).base = base ∧
        Region.last ((m.table id).regions i) = base + 0
    · rw [if_pos hwhole, Option.map_eq_some_iff] at he
      obtain ⟨t1, -, hm⟩ := he
      cases hm
    · rw [if_neg hwhole] at he
      by_cases hfront : ((m.table id).regions i).base = base
      · rw [if_pos hfront] at he
        cases he
      · rw [if_neg hfront] at he
        by_cases hback : Region.last ((m.table id).regions i) = base + 0
        · rw [if_pos hback] at he
          cases he
        · rw [if_neg hback] at he
          have hlo : ((m.table id).regions i).base < base := by
            have := hin.1
            omega
          have hhi : base + 0 < Region.last ((m.table id).regions i) := by
            have := hin.2
            omega
          have hfit := h.fits i hi
          obtain ⟨hs, -, -, -⟩ := shortened_spec h hi hlo hhi
          rw [wrapSub_of_le hfit hhi.le, wrapSub_of_le (by omega) hlo.le] at he
          have ht := m.table_setTable id (shortened (m.table id) base i)
          rw [← ht] at hs
          have hall := ((add_fails_iff depth _ _ _ hs (by rw [ht]; exact Nat.ne_of_gt (by
            change 0 < (m.table id).cnt
            omega)) (by omega)).mp he).2.1 i (by rw [ht]; exact hi)
          rw [ht] at hall
          refine hall.2.2 ?_
          rw [shortened, (m.table id).setRegion_self]
          dsimp only [Region.last]
          omega

/-- A removal strictly inside entry `i` reports an error exactly when the tail behind the hole
cannot be stored, and the hole is then missing. -/
theorem remove_inside_fails (depth : ℕ) (h : Spaced gap (m.table id)) (hsize : 0 < size) {i : ℕ}
    (hi : i < (m.table id).cnt) (hlo : ((m.table id).regions i).base < base)
    (hhi : base + size < Region.last ((m.table id).regions i)) :
    ((∃ m', memblockRemove (depth + 1) id base size m = some (-1, m')) ↔
      (i + 1 < (m.table id).cnt →
        Region.last ((m.table id).regions i) ≠ ((m.table id).regions (i + 1)).base) ∧
      TailFails id base size i m) ∧
    ∀ m', memblockRemove (depth + 1) id base size m = some (-1, m') →
      base ∉ bytes (m'.table id) := by
  have hfit := h.fits i hi
  have hspan : base + size + (Region.last ((m.table id).regions i) - (base + size)) =
      Region.last ((m.table id).regions i) := by omega
  obtain ⟨hs, hd, hb, -⟩ := shortened_spec h hi hlo hhi
  have ht := m.table_setTable id (shortened (m.table id) base i)
  have hs1 : Spaced gap ((m.setTable id (shortened (m.table id) base i)).table id) := by
    rwa [ht]
  have hc1 : ((m.setTable id (shortened (m.table id) base i)).table id).cnt ≠ 0 := by
    rw [ht]
    exact Nat.ne_of_gt (Nat.zero_lt_of_lt hi)
  rw [memblockRemove, remove_inside rfl h hsize hi hlo hhi]
  have hiff := fun m' => add_fails_iff depth m' (base + size)
    (Region.last ((m.table id).regions i) - (base + size)) hs1 hc1 (by omega)
  simp only [ht, Memblock.setTable_setTable] at hiff
  simp only [hiff, tail_untouched_iff h hsize hi hlo hhi]
  refine ⟨⟨?_, ?_⟩, ?_⟩
  · rintro ⟨m', -, hnext, hor⟩
    refine ⟨hnext, ?_⟩
    rcases hor with ⟨hfull, -⟩ | ⟨hmax, hfails, -⟩
    · exact Or.inl hfull
    · exact Or.inr ⟨hmax, hfails⟩
  · rintro ⟨hnext, hfull | ⟨hmax, hfails⟩⟩
    · exact ⟨_, hd, hnext, Or.inl ⟨hfull, rfl⟩⟩
    · exact ⟨_, hd, hnext, Or.inr ⟨hmax, hfails, rfl⟩⟩
  · rintro m' ⟨-, -, hor⟩ hin
    have hgone : base ∉ bytes (shortened (m.table id) base i) := fun hb' => by
      rw [hb, Set.mem_sdiff, Set.mem_Ico] at hb'
      omega
    rcases hor with ⟨-, rfl⟩ | ⟨-, -, rfl⟩
    · rw [ht] at hin
      exact hgone hin
    · rw [Memblock.table_setTable] at hin
      rcases (bytes_undone hs (Nat.zero_lt_of_lt hi) _ _).1 hin with hin | hin
      · exact hgone hin
      · rw [Set.mem_Ico] at hin
        omega

/-- A failing removal keeps the bytes exactly when it did not fail to store a tail. -/
theorem remove_keeps_iff (h : Spaced gap (m.table id)) (hlast : base + size < 2 ^ 32) :
    KeepsBytes id m (memblockRemove (depth + 1) id base size m) ↔
      ¬ RemoveLoses id base size m := by
  by_cases hsize : size = 0
  · subst hsize
    exact ⟨fun _ hl => absurd hl.1 (lt_irrefl 0), fun _ => remove_empty_keeps h hlast⟩
  have hpos : 0 < size := Nat.pos_of_ne_zero hsize
  by_cases hout : ∀ j < (m.table id).cnt, ¬ Within (m.table id) base size j
  · constructor
    · rintro - ⟨-, i, hi, hlo, hhi, -, -⟩
      exact hout i hi ⟨hlo.le, hhi.le⟩
    · intro _ m' he
      rw [memblockRemove, remove_outside h.fits hlast hout] at he
      cases he
      rfl
  · push Not at hout
    obtain ⟨i, hi, hin⟩ := hout
    have huniq : ∀ j < (m.table id).cnt, ((m.table id).regions j).base < base →
        base + size < Region.last ((m.table id).regions j) → j = i := fun j hj hlo hhi =>
      within_unique h hpos hj hi ⟨hlo.le, hhi.le⟩ hin
    by_cases hend : ((m.table id).regions i).base = base ∨
        Region.last ((m.table id).regions i) = base + size
    · constructor
      · rintro - ⟨-, j, hj, hlo, hhi, -, -⟩
        have := huniq j hj hlo hhi
        subst this
        omega
      · intro _ m' he
        obtain ⟨t', hok, -⟩ := remove_at_end (a := memblockAddRegion (depth + 1)) rfl h hpos hi
          hin hend
        rw [memblockRemove, hok] at he
        cases he
    · have hlo : ((m.table id).regions i).base < base := by
        have := hin.1
        omega
      have hhi : base + size < Region.last ((m.table id).regions i) := by
        have := hin.2
        omega
      obtain ⟨hfails, hgone⟩ := remove_inside_fails depth h hpos hi hlo hhi
      constructor
      · rintro hkeep ⟨-, j, hj, hlo', hhi', hnext, htail⟩
        have hji := huniq j hj hlo' hhi'
        subst hji
        obtain ⟨m', he⟩ := hfails.mpr ⟨hnext, htail⟩
        refine hgone m' he ?_
        rw [hkeep m' he]
        exact ⟨j, hj, hlo.le, by omega⟩
      · intro hn m' he
        obtain ⟨hnext, htail⟩ := hfails.mp ⟨m', he⟩
        exact absurd ⟨hpos, i, hi, hlo, hhi, hnext, htail⟩ hn

/-- For every well-formed table and every range, both updates keep the bytes when they
report an error, exactly outside the two situations described. -/
theorem rollback_iff (depth : ℕ) (id : TableId) (m : Memblock) (base size : ℕ)
    (h : Spaced 0 (m.table id)) (hlast : base + size < 2 ^ 32) :
    (KeepsBytes id m (memblockAddRegion (depth + 1) id base size m) ↔
      ¬ AddLoses id base size m) ∧
    (KeepsBytes id m (memblockRemove (depth + 1) id base size m) ↔
      ¬ RemoveLoses id base size m) :=
  ⟨add_keeps_iff h hlast, remove_keeps_iff h hlast⟩

/-- A memory table with one free entry: every second page from the second one on. -/
def almostFull : Memblock :=
  { memblockInit with
    memory := { staticTable with cnt := 127, regions := fun i => ⟨(i + 1) * 8192, 4096⟩ } }

/-- The nearly full table is in order. -/
theorem almostFull_spaced : Spaced 0 (almostFull.table .memory) := by
  refine ⟨by decide, by decide, by decide, fun i hi => ?_, fun i _ _ => ?_, fun i hi => ?_⟩
  all_goals
    simp only [almostFull, Memblock.table, Region.last] at *
    omega

/-- Behind all entries of the nearly full table both updates report an error, and they keep the
bytes. -/
theorem rollback_iff_above :
    (∃ m', memblockAddRegion 1 .memory 0x400000 0x100 almostFull = some (-1, m') ∧
      bytes (m'.table .memory) = bytes (almostFull.table .memory)) ∧
    ∃ m', memblockRemove 1 .memory 0x400000 0x100 almostFull = some (-1, m') ∧
      bytes (m'.table .memory) = bytes (almostFull.table .memory) := by
  have hs := almostFull_spaced
  obtain ⟨hadd, hremove⟩ := rollback_iff 0 .memory almostFull 0x400000 0x100 hs (by decide)
  have hkept : ¬ AddLoses .memory 0x400000 0x100 almostFull := by
    rintro ⟨-, -, -, -, -, hbelow, -⟩
    exact absurd hbelow (by decide)
  have hinside : ¬ RemoveLoses .memory 0x400000 0x100 almostFull := by
    rintro ⟨-, i, hi, -, habove, -⟩
    simp only [almostFull, Memblock.table, Region.last] at hi habove
    omega
  have hfails := (add_fails_iff 0 (almostFull.setTable .memory
    (undone (almostFull.table .memory) 0x400000 0x100)) 0x400000 0x100 hs (by decide)
    (by decide)).mpr ⟨fun hd => absurd hd.1 (by decide), fun k hk => ?_,
      Or.inr ⟨by decide, Or.inl rfl, rfl⟩⟩
  · have hnone : memblockRemove 1 .memory 0x400000 0x100 almostFull = some (-1, almostFull) := by
      have hscan : containingFrom (almostFull.table .memory) 0x400000 (wrap 32 (0x400000 + 0x100)) 0
          (almostFull.table .memory).cnt = none := by decide +kernel
      rw [memblockRemove, memblockRemoveWith]
      dsimp only
      rw [hscan]
    exact ⟨⟨_, hfails, hadd.mpr hkept _ hfails⟩, _, hnone, hremove.mpr hinside _ hnone⟩
  · simp only [almostFull, Memblock.table, Untouched, Region.last, ne_eq, Region.mk.injEq] at hk ⊢
    omega

/-- Inserting below all entries of the nearly full table reports an error and drops the entry
at the top. -/
theorem almostFull_counterexample :
    Spaced 0 (almostFull.table .memory) ∧
      ¬ KeepsBytes .memory almostFull (memblockAddRegion 1 .memory 2048 256 almostFull) := by
  have hs := almostFull_spaced
  refine ⟨hs, fun hkeep => (add_keeps_iff hs (by decide)).mp hkeep
    ⟨by decide, fun hd => absurd hd.1 (by decide), fun k _ => ?_, by decide, Or.inl rfl,
      by decide, fun hcover => absurd hcover.1 (by decide)⟩⟩
  simp only [almostFull, Memblock.table, Untouched, Region.last, ne_eq, Region.mk.injEq]
  omega

end BiscuitOS.MemblockRollback
