import BiscuitOS.MemblockTable

/-!
# The top-down search

`memblock_find_region` and `memblock_find_base` return the greatest fitting
address or report that none exists. A candidate that overlaps a reservation
falls strictly, which bounds the search.
-/

namespace BiscuitOS.MemblockSearch

open MachineWord MemblockModel MemblockTable

variable {m : Memblock} {t : MemblockType} {base size last start k : ℕ}

/-- The overlap test on ranges that do not wrap. -/
theorem addrsOverlap_iff (b1 s1 b2 s2 : ℕ) (h1 : b1 + s1 < 2 ^ 32) (h2 : b2 + s2 < 2 ^ 32) :
    memblockAddrsOverlap b1 s1 b2 s2 = true ↔ b1 < b2 + s2 ∧ b2 < b1 + s1 := by
  rw [memblockAddrsOverlap, wrap_of_lt h1, wrap_of_lt h2, Bool.and_eq_true, decide_eq_true_eq,
    decide_eq_true_eq]

/-- The scan for an overlapping entry answers one, or every entry looked at is clear. -/
theorem overlapsFrom_cases (base size : ℕ) (hfits : ∀ i < t.cnt, Region.last (t.regions i) < 2 ^ 32)
    (hlast : base + size < 2 ^ 32) (n i : ℕ) (hi : i + n = t.cnt) :
    (∃ j < t.cnt, overlapsFrom t base size i n = some j ∧ (t.regions j).base < base + size ∧
      base < Region.last (t.regions j)) ∨
    (overlapsFrom t base size i n = none ∧ ∀ j, i ≤ j → j < t.cnt →
      Region.last (t.regions j) ≤ base ∨ base + size ≤ (t.regions j).base) := by
  induction n generalizing i with
  | zero => exact Or.inr ⟨rfl, fun j _ _ => by omega⟩
  | succ n ih =>
    have hfit := hfits i (by omega)
    unfold Region.last at hfit ⊢
    have hov := addrsOverlap_iff _ _ _ _ hfit hlast
    rw [overlapsFrom, wrap_of_lt (show (t.regions i).base < 2 ^ 32 by omega),
      wrap_of_lt (show (t.regions i).size < 2 ^ 32 by omega)]
    by_cases ho : memblockAddrsOverlap (t.regions i).base (t.regions i).size base size = true
    · rw [if_pos ho]
      exact Or.inl ⟨i, by omega, rfl, (hov.mp ho).1, (hov.mp ho).2⟩
    · rw [if_neg ho]
      rcases ih (i + 1) (by omega) with hfound | ⟨hnone, hclear⟩
      · exact Or.inl hfound
      · refine Or.inr ⟨hnone, fun j hj hjc => ?_⟩
        by_cases he : j = i
        · subst he
          by_contra hc
          exact ho (hov.mpr (by omega))
        · exact hclear j (by omega) hjc

/-- An aligned address at which the range avoids every reservation and ends by `last`. -/
def FitsBelow (reserved : MemblockType) (start last size align q : ℕ) : Prop :=
  start ≤ q ∧ q + size ≤ last ∧ align ∣ q ∧ Clear reserved q size

/-- The downward search finds the greatest fit not above the candidate. -/
theorem findRegionLoop_isGreatest (hfits : ∀ i < t.cnt, Region.last (t.regions i) < 2 ^ 32)
    (hlast : last < 2 ^ 32) (hk : k < 32) (n base : ℕ) (hfuel : base < n)
    (hfit : base + size ≤ last) (halign : 2 ^ k ∣ base)
    (hbound : ∀ q, FitsBelow t start last size (2 ^ k) q → q ≤ base) :
    ∃ r, findRegionLoop t start size (2 ^ k) n base = some r ∧
      (r = 0 ∧ (∀ q, ¬ FitsBelow t start last size (2 ^ k) q) ∨
        IsGreatest {q | FitsBelow t start last size (2 ^ k) q} r) := by
  induction n generalizing base with
  | zero => omega
  | succ n ih =>
    rw [findRegionLoop]
    by_cases hs : start ≤ base
    · rw [if_pos hs, memblockOverlapsRegion]
      rcases overlapsFrom_cases base size hfits (by omega) t.cnt 0
          (Nat.zero_add _) with ⟨j, hj, hover, hlo, hhi⟩ | ⟨hnone, hclear⟩
      · have hb := hfits j hj
        have hle : (t.regions j).base ≤ Region.last (t.regions j) := Nat.le_add_right _ _
        have hbelow : ∀ q, FitsBelow t start last size (2 ^ k) q →
            q + size ≤ (t.regions j).base := fun q hq => by
          have hqb := hbound q hq
          rcases hq.2.2.2 j hj with hc | hc
          · omega
          · exact hc
        rw [hover]
        dsimp only
        rw [wrap_of_lt (show (t.regions j).base < 2 ^ 32 by omega)]
        by_cases hres : (t.regions j).base < size
        · rw [if_pos hres]
          refine ⟨0, rfl, Or.inl ⟨rfl, fun q hq => ?_⟩⟩
          have := hbelow q hq
          omega
        · have hsub : wrapSub 32 (t.regions j).base size = (t.regions j).base - size :=
            wrapSub_of_le (by omega) (by omega)
          obtain ⟨hd1, -, hd3⟩ := alignDown_spec
            (show (t.regions j).base - size < 2 ^ 32 by omega) hk
          rw [if_neg hres, hsub, memblockAlignDown]
          refine ih _ (by omega) (by omega) hd3 fun q hq => ?_
          have hq1 := hbelow q hq
          exact le_alignDown (by omega) hk hq.2.2.1 (by omega)
      · rw [hnone]
        exact ⟨base, rfl, Or.inr ⟨⟨hs, hfit, halign, fun i hi => hclear i (Nat.zero_le i) hi⟩,
          fun q hq => hbound q hq⟩⟩
    · rw [if_neg hs]
      refine ⟨0, rfl, Or.inl ⟨rfl, fun q hq => ?_⟩⟩
      have hq1 := hbound q hq
      have hq2 := hq.1
      omega

/-- The lowest address a search from `start` may answer; address zero means failure. -/
def firstAddr (start : ℕ) : ℕ := if start = 0 then pageSize else start

/-- No search answers address zero. -/
theorem firstAddr_pos (start : ℕ) : 0 < firstAddr start := by
  rw [firstAddr]
  split
  · decide
  · omega

/-- A search never starts below the address asked for. -/
theorem le_firstAddr (start : ℕ) : start ≤ firstAddr start := by
  rw [firstAddr]
  split <;> omega

/-- `memblock_find_region` answers the greatest fit of its window. -/
theorem findRegion_isGreatest
    (hfits : ∀ i < m.reserved.cnt, Region.last (m.reserved.regions i) < 2 ^ 32)
    (hlast : last < 2 ^ 32) (hk : k < 32) (start size : ℕ) :
    ∃ r, memblockFindRegion m start last size (2 ^ k) = some r ∧
      (r = 0 ∧ (∀ q, ¬ FitsBelow m.reserved (firstAddr start) last size (2 ^ k) q) ∨
        IsGreatest {q | FitsBelow m.reserved (firstAddr start) last size (2 ^ k) q} r) := by
  rw [memblockFindRegion]
  by_cases hlt : last < size
  · rw [if_pos hlt]
    refine ⟨0, rfl, Or.inl ⟨rfl, fun q hq => ?_⟩⟩
    have := hq.2.1
    omega
  · have hsub : wrapSub 32 last size = last - size := wrapSub_of_le hlast (by omega)
    obtain ⟨hd1, -, hd3⟩ := alignDown_spec (show last - size < 2 ^ 32 by omega) hk
    rw [if_neg hlt, hsub]
    refine findRegionLoop_isGreatest hfits hlast hk _ _ (Nat.lt_succ_self _) ?_ hd3 fun q hq => ?_
    · rw [memblockAlignDown]
      omega
    · have := hq.2.1
      exact le_alignDown (by omega) hk hq.2.2.1 (by omega)

/-- An address at which the range lies in memory entry `i`, ends by `limit`, is aligned and
avoids every reservation. -/
def FitsIn (m : Memblock) (size align limit i q : ℕ) : Prop :=
  FitsBelow m.reserved (firstAddr (m.memory.regions i).base)
    (min (Region.last (m.memory.regions i)) limit) size align q

/-- The search over the memory entries below `n` answers their greatest fit. -/
theorem findBaseFrom_greatest (hmem : Spaced 0 m.memory) (hres : Spaced 0 m.reserved)
    (hsize : 0 < size) (hk : k < 32) (limit n : ℕ) (hn : n ≤ m.memory.cnt) :
    ∃ r, findBaseFrom m size (2 ^ k) 0 limit n = some r ∧
      (r = 0 ∧ (∀ i < n, ∀ q, ¬ FitsIn m size (2 ^ k) limit i q) ∨
        r ≠ 0 ∧ (∃ i < n, FitsIn m size (2 ^ k) limit i r) ∧
          ∀ i < n, ∀ q, FitsIn m size (2 ^ k) limit i q → q ≤ r) := by
  induction n with
  | zero => exact ⟨0, rfl, Or.inl ⟨rfl, fun i hi => by omega⟩⟩
  | succ n ih =>
    have hfit := hmem.fits n (by omega)
    obtain ⟨r, hr, hspec⟩ := ih (by omega)
    have hskip : (∀ q, ¬ FitsIn m size (2 ^ k) limit n q) →
        (r = 0 ∧ (∀ i < n + 1, ∀ q, ¬ FitsIn m size (2 ^ k) limit i q) ∨
        r ≠ 0 ∧ (∃ i < n + 1, FitsIn m size (2 ^ k) limit i r) ∧
          ∀ i < n + 1, ∀ q, FitsIn m size (2 ^ k) limit i q → q ≤ r) := fun hno => by
      have hcase : ∀ i < n + 1, ∀ q, FitsIn m size (2 ^ k) limit i q →
          i < n ∧ FitsIn m size (2 ^ k) limit i q := fun i hi q hq => by
        refine ⟨?_, hq⟩
        by_contra hge
        have he : i = n := by omega
        exact hno q (he ▸ hq)
      rcases hspec with ⟨hz, hnone⟩ | ⟨hnz, ⟨i, hi, hin⟩, hmax⟩
      · exact Or.inl ⟨hz, fun i hi q hq => hnone i (hcase i hi q hq).1 q hq⟩
      · exact Or.inr ⟨hnz, ⟨i, by omega, hin⟩, fun j hj q hq => hmax j (hcase j hj q hq).1 q hq⟩
    have hwrap : wrap 32 ((m.memory.regions n).base + (m.memory.regions n).size) =
        Region.last (m.memory.regions n) := wrap_of_lt hfit
    rw [findBaseFrom]
    dsimp only
    unfold Region.last at hfit
    rw [wrap_of_lt (show (m.memory.regions n).base < 2 ^ 32 by omega),
      wrap_of_lt (show (m.memory.regions n).size < 2 ^ 32 by omega), hwrap]
    by_cases hsmall : (m.memory.regions n).size < size
    · rw [if_pos hsmall]
      refine ⟨r, hr, hskip fun q hq => ?_⟩
      have h1 := hq.1
      have h2 := hq.2.1
      have h3 := le_firstAddr (m.memory.regions n).base
      unfold Region.last at h2
      omega
    · have hpos : ¬ Region.last (m.memory.regions n) ≤ 0 := by
        rw [Region.last]
        omega
      have hmaxz : Nat.max (m.memory.regions n).base 0 = (m.memory.regions n).base :=
        Nat.max_zero _
      rw [if_neg hsmall, if_neg hpos, hmaxz]
      by_cases htop : Nat.min (Region.last (m.memory.regions n)) limit ≤ (m.memory.regions n).base
      · rw [if_pos htop]
        refine ⟨r, hr, hskip fun q hq => ?_⟩
        have h1 := hq.1
        have h2 := hq.2.1
        have h3 := le_firstAddr (m.memory.regions n).base
        change min (Region.last (m.memory.regions n)) limit ≤ _ at htop
        omega
      · have hlt : Nat.min (Region.last (m.memory.regions n)) limit < 2 ^ 32 :=
          lt_of_le_of_lt (Nat.min_le_left _ _) hfit
        obtain ⟨found, hfound, hcases⟩ := findRegion_isGreatest hres.fits hlt hk
          (m.memory.regions n).base size
        rw [if_neg htop, hfound]
        dsimp only
        rcases hcases with ⟨hz, hno⟩ | hgreat
        · rw [if_neg (show ¬ found ≠ memblockError from not_not.mpr hz)]
          exact ⟨r, hr, hskip hno⟩
        · have hnz : found ≠ 0 := by
            have h1 := hgreat.1.1
            have h2 := firstAddr_pos (m.memory.regions n).base
            omega
          rw [if_pos (show found ≠ memblockError from hnz)]
          refine ⟨found, rfl, Or.inr ⟨hnz, ⟨n, by omega, hgreat.1⟩, fun i hi q hq => ?_⟩⟩
          by_cases he : i = n
          · subst he
            exact hgreat.2 hq
          · have hp := hmem.apart_lt (show i < n by omega) (by omega)
            have h1 := hgreat.1.1
            have h2 := hq.2.1
            have h3 := le_firstAddr (m.memory.regions n).base
            omega

/-- The end address a search is limited to. -/
def searchLimit (m : Memblock) (max : ℕ) : ℕ := if max = 0 then wrap 32 m.currentLimit else max

/-- An address at which a range of this size and alignment can be handed out. -/
def Fits (m : Memblock) (size align max q : ℕ) : Prop :=
  ∃ i < m.memory.cnt, FitsIn m size align (searchLimit m max) i q

/-- `memblock_find_base` terminates with the greatest fit, or zero when nothing fits. -/
theorem findBase_isGreatest (hmem : Spaced 0 m.memory) (hres : Spaced 0 m.reserved)
    (hsize : 0 < size) (hk : k < 32) (max : ℕ) :
    ∃ r, memblockFindBase m size (2 ^ k) 0 max = some r ∧
      (r = 0 ∧ (∀ q, ¬ Fits m size (2 ^ k) max q) ∨
        r ≠ 0 ∧ IsGreatest {q | Fits m size (2 ^ k) max q} r) := by
  obtain ⟨r, hr, hspec⟩ := findBaseFrom_greatest hmem hres hsize hk (searchLimit m max) _ (le_refl _)
  refine ⟨r, hr, ?_⟩
  rcases hspec with ⟨hz, hnone⟩ | ⟨hnz, hin, hmax⟩
  · exact Or.inl ⟨hz, fun q ⟨i, hi, hq⟩ => hnone i hi q hq⟩
  · exact Or.inr ⟨hnz, hin, fun q ⟨i, hi, hq⟩ => hmax i hi q hq⟩

end BiscuitOS.MemblockSearch
