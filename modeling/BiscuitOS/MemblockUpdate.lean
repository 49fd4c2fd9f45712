import BiscuitOS.MemblockTable

/-!
# What the table updates do to the described bytes

The insertion and the removal of `mm/memblock.c` on well-formed tables. Every
result is stated for an arbitrary doubling function, so that it can be used
inside the doubling as well.
-/

namespace BiscuitOS.MemblockUpdate

open MachineWord MemblockModel MemblockTable

/-- A table that replaces another one in place: same array, the stated bytes, well formed. -/
structure Becomes (gap : ℕ) (t t' : MemblockType) (covered : Set ℕ) : Prop where
  spaced : Spaced gap t'
  bytes_eq : bytes t' = covered
  cnt_le : t'.cnt ≤ t.cnt + 1
  max_eq : t'.max = t.max
  room_eq : t'.room = t.room
  array_eq : t'.array = t.array

variable {d : TableId → Memblock → Option (ℤ × Memblock)} {id : TableId} {m : Memblock}
  {gap base size : ℕ} {t : MemblockType}

/-- An untouched clear range lies a byte away from the entry on either side. -/
theorem untouched_sides (hclear : Clear t base size) {k : ℕ} (hk : k < t.cnt)
    (hu : Untouched t base size k) :
    Region.last (t.regions k) + 1 ≤ base ∨ base + size + 1 ≤ (t.regions k).base := by
  obtain ⟨-, hdown, hup⟩ := hu
  rcases hclear k hk with h | h
  · exact Or.inl (by omega)
  · exact Or.inr (by omega)

/-- Overwriting the dummy entry. -/
theorem setRegion_dummy (h : Spaced gap t) (hd : IsDummy t) (base size gap' : ℕ)
    (hlast : base + size < 2 ^ 32) :
    Becomes gap' t (t.setRegion 0 ⟨base, size⟩) (Set.Ico base (base + size)) := by
  have hc : t.cnt = 1 := hd.1
  have hself : (t.setRegion 0 ⟨base, size⟩).regions 0 = ⟨base, size⟩ := t.setRegion_self _ _
  refine ⟨⟨h.cnt_le, h.max_le, h.room_lt, fun i hi => ?_, fun i hi hne => absurd hc hne,
    fun i hi => ?_⟩, ?_, Nat.le_succ _, rfl, rfl, rfl⟩
  · rw [MemblockType.setRegion_cnt] at hi
    have hz : i = 0 := by omega
    rw [hz, hself]
    exact hlast
  · rw [MemblockType.setRegion_cnt] at hi
    omega
  · rw [bytes_extend (by omega) fun a => ?_, bytes_dummy hd, Set.empty_union]
    rw [Region.last, Region.last, hd.2]
    constructor
    · exact Or.inr
    · rintro (h | h)
      · omega
      · exact h

/-- The insertion into a table holding only the dummy entry. -/
theorem addRegion_dummy (hd : IsDummy (m.table id)) :
    memblockAddRegionWith d id base size m =
      some (0, m.setTable id ((m.table id).setRegion 0 ⟨base, size⟩)) := by
  rw [memblockAddRegionWith]
  exact if_pos hd

/-- What follows once the scan has extended entry `j`. -/
theorem extended_becomes (hgap : gap ≤ 1) {j : ℕ} {r : Region} (hj : j < t.cnt)
    (hd : ¬ IsDummy (m.table id)) (ht : m.table id = t) (hcnt : t.cnt < 2 ^ 32)
    (hscan : coalesceScan t base size 0 t.cnt = .stopped (t.setRegion j r) j 1)
    (hbut : SpacedBut gap (t.setRegion j r) j)
    (hbytes : bytes (t.setRegion j r) = bytes t ∪ Set.Ico base (base + size)) :
    ∃ ret t', 0 < ret ∧
      memblockAddRegionWith d id base size m = some (ret, m.setTable id t') ∧
      Becomes gap t t' (bytes t ∪ Set.Ico base (base + size)) := by
  have hsub : wrapSub 64 t.cnt 1 = t.cnt - 1 := wrapSub_of_le (by omega) (by omega)
  subst ht
  unfold IsDummy at hd
  rw [memblockAddRegionWith]
  dsimp only
  rw [if_neg hd, hscan]
  dsimp only
  rw [MemblockType.setRegion_cnt, hsub]
  by_cases hplug : j < (m.table id).cnt - 1 ∧
      memblockRegionsAdjacent ((m.table id).setRegion j r) j (j + 1) ≠ 0
  · rw [if_pos hplug]
    have hj1 : j + 1 < ((m.table id).setRegion j r).cnt := by
      rw [MemblockType.setRegion_cnt]
      omega
    obtain ⟨t2, he, hs, hb, hcnt2, hmax, hroom, harr⟩ :=
      hbut.coalesce hj1 ((hbut.adjacent_iff hj1).mp hplug.2)
    refine ⟨2, t2, by decide, by rw [he]; rfl, hs, by rw [hb, hbytes],
      by rw [hcnt2, MemblockType.setRegion_cnt]; omega, hmax, hroom, harr⟩
  · rw [if_neg hplug, if_pos (by decide)]
    refine ⟨1, _, by decide, rfl, ⟨hbut.spaced.cnt_le, hbut.spaced.max_le, hbut.spaced.room_lt,
      hbut.spaced.fits, hbut.spaced.filled, fun i hi => ?_⟩, hbytes,
      Nat.le_succ _, rfl, rfl, rfl⟩
    by_cases he : i = j
    · subst he
      have hle := hbut.spaced.apart i hi
      have hne : Region.last (((m.table id).setRegion i r).regions i) ≠
          (((m.table id).setRegion i r).regions (i + 1)).base := fun hmeet =>
        hplug ⟨by rw [MemblockType.setRegion_cnt] at hi; omega, (hbut.adjacent_iff hi).mpr hmeet⟩
      omega
    · exact hbut.others i he hi

/-- A range that touches an entry is merged into it, and the hole behind it is plugged. -/
theorem addRegion_touched (ht : m.table id = t) (h : Spaced gap t) (hgap : gap ≤ 1)
    (hd : ¬ IsDummy t) (hsize : 0 < size) (hlast : base + size < 2 ^ 32)
    (hclear : Clear t base size) {k : ℕ} (hk : k < t.cnt) (hu : ¬ Untouched t base size k) :
    ∃ ret t', 0 < ret ∧
      memblockAddRegionWith d id base size m = some (ret, m.setTable id t') ∧
      Becomes gap t t' (bytes t ∪ Set.Ico base (base + size)) := by
  have hcnt : t.cnt < 2 ^ 32 := lt_of_le_of_lt (h.cnt_le.trans h.max_le) h.room_lt
  have hd' : ¬ IsDummy (m.table id) := by rwa [ht]
  rcases coalesceScan_cases h.fits hlast t.cnt 0 (Nat.zero_add _) (fun _ hj => by omega) with
    ⟨j, hj, heq, -⟩ | ⟨j, hj, hbelow, hmeet, hscan⟩ | ⟨j, hj, hbelow, hmeet, hscan⟩ | ⟨hall, -⟩
  · have hc := hclear j hj
    rw [heq, Region.last] at hc
    dsimp only at hc
    omega
  · have hfit := h.fits j hj
    have hlast' : Region.last (⟨base, (t.regions j).size + size⟩ : Region) =
        Region.last (t.regions j) := by
      rw [Region.last, Region.last, hmeet]
      dsimp only
      omega
    refine extended_becomes hgap hj hd' ht hcnt hscan
      (spacedBut_extend h hd (Nat.add_pos_right _ hsize) (hlast' ▸ hfit) (fun i hi => ?_)
        fun hn => ?_) (bytes_extend hj fun a => ?_)
    · have hs := untouched_sides hclear (show i < t.cnt by omega) (hbelow i (by omega))
      have hp := h.apart_lt (show i < j by omega) hj
      have hf : (t.regions i).base ≤ Region.last (t.regions i) := Nat.le_add_right _ _
      dsimp only
      omega
    · have hp := h.apart j hn
      rw [hlast']
      omega
    · rw [hlast', Region.last, hmeet]
      dsimp only
      omega
  · have hlast' : Region.last (⟨(t.regions j).base, (t.regions j).size + size⟩ : Region) =
        base + size := by
      rw [← hmeet, Region.last, Region.last]
      dsimp only
      omega
    refine extended_becomes hgap hj hd' ht hcnt hscan
      (spacedBut_extend h hd (Nat.add_pos_right _ hsize) (hlast' ▸ hlast) (fun i hi => ?_)
        fun hn => ?_) (bytes_extend hj fun a => ?_)
    · subst hi
      exact h.apart i hj
    · have hp := h.apart j hn
      have hf := h.full hd hn
      rw [hlast']
      rcases hclear (j + 1) hn with hc | hc
      · rw [Region.last] at hc
        omega
      · exact hc
    · rw [hlast', hmeet]
      dsimp only
      have hb : (t.regions j).base ≤ base := by
        rw [← hmeet]
        exact Nat.le_add_right _ _
      omega
  · exact absurd (hall k hk) hu

/-- A range already stored in a coalesced table is found by the scan. -/
theorem addRegion_stored (ht : m.table id = t) (h : Spaced 1 t) (hsize : 0 < size)
    (hlast : base + size < 2 ^ 32) {k : ℕ} (hk : k < t.cnt) (heq : t.regions k = ⟨base, size⟩) :
    memblockAddRegionWith d id base size m = some (0, m) := by
  have hd : ¬ IsDummy (m.table id) := fun hd => by
    rw [ht] at hd
    have hz : k = 0 := by
      have := hd.1
      omega
    have hs := hd.2
    rw [← hz, heq] at hs
    dsimp only at hs
    omega
  have htouch : ∀ j < t.cnt, (t.regions j).base ≠ base + size ∧
      Region.last (t.regions j) ≠ base := fun j hj => by
    have hk1 : (t.regions k).base = base := by rw [heq]
    have hk2 : Region.last (t.regions k) = base + size := by rw [heq, Region.last]
    have hf : (t.regions j).base ≤ Region.last (t.regions j) := Nat.le_add_right _ _
    rcases Nat.lt_trichotomy j k with hlt | heq' | hgt
    · have hp := h.apart_lt hlt hk
      exact ⟨by omega, by omega⟩
    · subst heq'
      exact ⟨by omega, by omega⟩
    · have hp := h.apart_lt hgt hj
      exact ⟨by omega, by omega⟩
  unfold IsDummy at hd
  rw [memblockAddRegionWith]
  dsimp only
  rw [ht] at hd ⊢
  rw [if_neg hd]
  rcases coalesceScan_cases h.fits hlast t.cnt 0 (Nat.zero_add _) (fun _ hj => by omega) with
    ⟨j, hj, -, hscan⟩ | ⟨j, hj, -, hmeet, -⟩ | ⟨j, hj, -, hmeet, -⟩ | ⟨hall, -⟩
  · rw [hscan]
  · exact absurd hmeet (htouch j hj).1
  · exact absurd hmeet (htouch j hj).2
  · exact absurd heq (hall k hk).1

/-- The insertion of a range that touches no entry. -/
theorem addRegion_untouched (ht : m.table id = t) (h : Spaced gap t) (hc : 0 < t.cnt)
    (hd : ¬ IsDummy t) (hlast : base + size < 2 ^ 32)
    (hall : ∀ k < t.cnt, Untouched t base size k) :
    memblockAddRegionWith d id base size m =
      if t.max ≤ t.cnt then some (-1, m)
      else if t.cnt + 1 = t.max then
        (d id (m.setTable id (insertRegion t base size))).map fun (failed, m3) =>
          if failed ≠ 0 then
            (-1, m3.setTable id { m3.table id with cnt := wrapSub 64 (m3.table id).cnt 1 })
          else (0, m3)
      else some (0, m.setTable id (insertRegion t base size)) := by
  have hcnt : t.cnt < 2 ^ 32 := lt_of_le_of_lt (h.cnt_le.trans h.max_le) h.room_lt
  have hsub : wrapSub 64 t.cnt 1 = t.cnt - 1 := wrapSub_of_le (by omega) (by omega)
  have hins : (insertRegion t base size).cnt = t.cnt + 1 := wrap_of_lt (by omega)
  have hmax : (insertRegion t base size).max = t.max := rfl
  unfold IsDummy at hd
  rw [memblockAddRegionWith]
  dsimp only
  rw [ht, if_neg hd]
  rcases coalesceScan_cases h.fits hlast t.cnt 0 (Nat.zero_add _) (fun _ hj => by omega) with
    ⟨j, hj, heq, -⟩ | ⟨j, hj, -, hmeet, -⟩ | ⟨j, hj, -, hmeet, -⟩ | ⟨-, hscan⟩
  · exact absurd heq (hall j hj).1
  · exact absurd hmeet (hall j hj).2.1
  · exact absurd hmeet (hall j hj).2.2
  · have hset : m.setTable id t = m := by rw [← ht, Memblock.setTable_table]
    rw [hscan]
    dsimp only
    rw [hsub, if_neg (by omega), if_neg (by decide), hset, hins, hmax]

/-- The sorted insertion of a clear range away from every entry. -/
theorem insertRegion_becomes (h : Spaced gap t) (hgap : gap ≤ 1) (hc : 0 < t.cnt)
    (hd : ¬ IsDummy t) (hroom : t.cnt < t.max) (hsize : 0 < size) (hlast : base + size < 2 ^ 32)
    (hclear : Clear t base size) (hall : ∀ k < t.cnt, Untouched t base size k) :
    Becomes gap t (insertRegion t base size) (bytes t ∪ Set.Ico base (base + size)) := by
  obtain ⟨p, hp, hbelow, habove, he⟩ := insertRegion_eq h hc base size
  have hlow : ∀ k < p, Region.last (t.regions k) + gap ≤ base := fun k hk => by
    have hs := untouched_sides hclear (show k < t.cnt by omega) (hall k (by omega))
    have hb : (t.regions k).base ≤ base := by
      have hle := hbelow (p - 1) (by omega) (by omega)
      by_cases hkp : k = p - 1
      · rwa [hkp]
      · have hap := h.apart_lt (show k < p - 1 by omega) (by omega)
        have hf : (t.regions k).base ≤ Region.last (t.regions k) := Nat.le_add_right _ _
        omega
    omega
  have hhigh : ∀ k, p ≤ k → k < t.cnt → base + size + gap ≤ (t.regions k).base := fun k hk hkc => by
    have hs := untouched_sides hclear hkc (hall k hkc)
    have hb := habove k hk hkc
    have hf : (t.regions k).base ≤ Region.last (t.regions k) := Nat.le_add_right _ _
    omega
  rw [he]
  refine ⟨⟨by dsimp only; omega, h.max_le, h.room_lt, fun i hi => ?_, fun i hi _ => ?_,
    fun i hi => ?_⟩, ?_, le_refl _, rfl, rfl, rfl⟩
  · dsimp only at hi ⊢
    by_cases h1 : i < p
    · rw [if_pos (Or.inl h1)]
      exact h.fits i (by omega)
    · rw [if_neg (by omega)]
      by_cases h2 : i = p
      · rw [if_pos h2]
        exact hlast
      · rw [if_neg h2]
        exact h.fits (i - 1) (by omega)
  · dsimp only at hi ⊢
    by_cases h1 : i < p
    · rw [if_pos (Or.inl h1)]
      exact h.full hd (by omega)
    · rw [if_neg (by omega)]
      by_cases h2 : i = p
      · rw [if_pos h2]
        exact hsize
      · rw [if_neg h2]
        exact h.full hd (by omega)
  · dsimp only at hi ⊢
    by_cases h1 : i + 1 < p
    · rw [if_pos (by omega), if_pos (by omega)]
      exact h.apart i (by omega)
    · by_cases h2 : i + 1 = p
      · rw [if_pos (by omega), if_neg (by omega), if_pos h2]
        exact hlow i (by omega)
      · by_cases h3 : i = p
        · rw [if_neg (by omega), if_pos h3, if_neg (by omega), if_neg (by omega)]
          exact hhigh _ (by omega) (by omega)
        · have ha := h.apart (i - 1) (by omega)
          rw [if_neg (by omega), if_neg h3, if_neg (by omega), if_neg h2]
          rwa [show i - 1 + 1 = i + 1 - 1 by omega] at ha
  · ext a
    simp only [bytes, Set.mem_ofPred_eq, Set.mem_union, Set.mem_Ico]
    constructor
    · rintro ⟨i, hi, ha⟩
      by_cases h1 : i < p
      · rw [if_pos (Or.inl h1)] at ha
        exact Or.inl ⟨i, by omega, ha⟩
      · rw [if_neg (by omega)] at ha
        by_cases h2 : i = p
        · rw [if_pos h2] at ha
          exact Or.inr ha
        · rw [if_neg h2] at ha
          exact Or.inl ⟨i - 1, by omega, ha⟩
    · rintro (⟨i, hi, ha⟩ | ha)
      · by_cases h1 : i < p
        · refine ⟨i, by omega, ?_⟩
          rwa [if_pos (Or.inl h1)]
        · refine ⟨i + 1, by omega, ?_⟩
          rwa [if_neg (by omega), if_neg (by omega)]
      · refine ⟨p, by omega, ?_⟩
        rwa [if_neg (by omega), if_pos rfl]

/-- Inserting a clear range into a table with a free entry, or into one it touches. -/
theorem addRegion_clear (ht : m.table id = t) (h : Spaced gap t) (hgap : gap ≤ 1) (hc : 0 < t.cnt)
    (hd : ¬ IsDummy t) (hsize : 0 < size) (hlast : base + size < 2 ^ 32)
    (hclear : Clear t base size)
    (hroom : (∀ k < t.cnt, Untouched t base size k) → t.cnt + 1 < t.max) :
    ∃ ret t', 0 ≤ ret ∧
      memblockAddRegionWith d id base size m = some (ret, m.setTable id t') ∧
      Becomes gap t t' (bytes t ∪ Set.Ico base (base + size)) := by
  by_cases hall : ∀ k < t.cnt, Untouched t base size k
  · have hfree := hroom hall
    refine ⟨0, _, le_refl 0, ?_, insertRegion_becomes h hgap hc hd (by omega) hsize hlast hclear
      hall⟩
    rw [addRegion_untouched ht h hc hd hlast hall, if_neg (by omega), if_neg (by omega)]
  · push Not at hall
    obtain ⟨k, hk, hu⟩ := hall
    obtain ⟨ret, t', hpos, he, hb⟩ := addRegion_touched (d := d) ht h hgap hd hsize hlast hclear hk hu
    exact ⟨ret, t', hpos.le, he, hb⟩

/-- The range lies within one stored entry. -/
def Within (t : MemblockType) (base size i : ℕ) : Prop :=
  (t.regions i).base ≤ base ∧ base + size ≤ Region.last (t.regions i)

/-- The search of the removal looks at one entry after the other. -/
theorem containingFrom_succ {i : ℕ} (hfit : Region.last (t.regions i) < 2 ^ 32) (last n : ℕ) :
    containingFrom t base last i (n + 1) =
      if (t.regions i).base ≤ base ∧ last ≤ Region.last (t.regions i) then some i
      else containingFrom t base last (i + 1) n := by
  unfold Region.last at hfit ⊢
  rw [containingFrom, wrap_of_lt (show (t.regions i).base < 2 ^ 32 by omega), wrap_of_lt hfit]

/-- The search answers the first entry containing the range. -/
theorem containingFrom_eq (hfits : ∀ i < t.cnt, Region.last (t.regions i) < 2 ^ 32) {k : ℕ}
    (hk : k < t.cnt) (hin : Within t base size k) (hfirst : ∀ j < k, ¬ Within t base size j)
    (n i : ℕ) (hi : i + n = t.cnt) (hik : i ≤ k) :
    containingFrom t base (base + size) i n = some k := by
  induction n generalizing i with
  | zero => omega
  | succ n ih =>
    rw [containingFrom_succ (hfits i (by omega))]
    rcases Nat.lt_or_eq_of_le hik with hlt | heq
    · have hn := hfirst i hlt
      unfold Within at hn
      rw [if_neg hn]
      exact ih (i + 1) (by omega) hlt
    · subst heq
      exact if_pos hin

/-- The search answers nothing when no entry contains the range. -/
theorem containingFrom_none (hfits : ∀ i < t.cnt, Region.last (t.regions i) < 2 ^ 32)
    (hout : ∀ j < t.cnt, ¬ Within t base size j) (n i : ℕ) (hi : i + n = t.cnt) :
    containingFrom t base (base + size) i n = none := by
  induction n generalizing i with
  | zero => rfl
  | succ n ih =>
    have hn := hout i (by omega)
    unfold Within at hn
    rw [containingFrom_succ (hfits i (by omega)), if_neg hn]
    exact ih (i + 1) (by omega)

/-- A removal of a range that no entry contains reports an error and changes nothing. -/
theorem remove_outside {a : TableId → ℕ → ℕ → Memblock → Option (ℤ × Memblock)}
    (hfits : ∀ i < (m.table id).cnt, Region.last ((m.table id).regions i) < 2 ^ 32)
    (hlast : base + size < 2 ^ 32) (hout : ∀ j < (m.table id).cnt, ¬ Within (m.table id) base size j) :
    memblockRemoveWith a id base size m = some (-1, m) := by
  rw [memblockRemoveWith]
  dsimp only
  rw [wrap_of_lt hlast, containingFrom_none hfits hout _ _ (Nat.zero_add _)]

/-- A nonempty range is within at most one entry. -/
theorem within_unique (h : Spaced gap t) (hsize : 0 < size) {j k : ℕ} (hj : j < t.cnt)
    (hk : k < t.cnt) (hjin : Within t base size j) (hkin : Within t base size k) : j = k := by
  obtain ⟨hj1, hj2⟩ := hjin
  obtain ⟨hk1, hk2⟩ := hkin
  rcases Nat.lt_trichotomy j k with hlt | heq | hgt
  · have hp := h.apart_lt hlt hk
    omega
  · exact heq
  · have hp := h.apart_lt hgt hj
    omega

/-- Replacing an entry by one that covers exactly its bytes outside the range drops the range. -/
theorem bytes_shrink {j : ℕ} {r : Region} (h : Spaced gap t) (hj : j < t.cnt)
    (hin : Within t base size j)
    (hcover : ∀ a, r.base ≤ a ∧ a < Region.last r ↔
      ((t.regions j).base ≤ a ∧ a < Region.last (t.regions j)) ∧ ¬ (base ≤ a ∧ a < base + size)) :
    bytes (t.setRegion j r) = bytes t \ Set.Ico base (base + size) := by
  ext a
  simp only [bytes, MemblockType.setRegion_cnt, Set.mem_ofPred_eq, Set.mem_sdiff, Set.mem_Ico]
  constructor
  · rintro ⟨i, hi, ha⟩
    by_cases he : i = j
    · subst he
      rw [t.setRegion_self] at ha
      exact ⟨⟨i, hi, ((hcover a).mp ha).1⟩, ((hcover a).mp ha).2⟩
    · rw [t.setRegion_other he] at ha
      refine ⟨⟨i, hi, ha⟩, fun hr => ?_⟩
      obtain ⟨hin1, hin2⟩ := hin
      rcases Nat.lt_or_gt_of_ne he with hlt | hgt
      · have hp := h.apart_lt hlt hj
        omega
      · have hp := h.apart_lt hgt hi
        omega
  · rintro ⟨⟨i, hi, ha⟩, hr⟩
    refine ⟨i, hi, ?_⟩
    by_cases he : i = j
    · subst he
      rw [t.setRegion_self]
      exact (hcover a).mpr ⟨ha, hr⟩
    · rw [t.setRegion_other he]
      exact ha

/-- Shrinking an entry within its own bounds keeps the table well formed. -/
theorem setRegion_spaced {j : ℕ} {r : Region} (h : Spaced gap t) (hpos : 0 < r.size)
    (hlo : (t.regions j).base ≤ r.base) (hhi : Region.last r ≤ Region.last (t.regions j)) :
    Spaced gap (t.setRegion j r) := by
  refine ⟨h.cnt_le, h.max_le, h.room_lt, fun i hi => ?_, fun i hi hne => ?_, fun i hi => ?_⟩
  · have hf := h.fits i hi
    by_cases he : i = j
    · subst he
      rw [t.setRegion_self]
      omega
    · rwa [t.setRegion_other he]
  · by_cases he : i = j
    · subst he
      rwa [t.setRegion_self]
    · rw [t.setRegion_other he]
      exact h.filled i hi hne
  · have ha := h.apart i hi
    by_cases he : i = j
    · subst he
      rw [t.setRegion_self, t.setRegion_other (by omega)]
      omega
    · rw [t.setRegion_other he]
      by_cases hs : i + 1 = j
      · rw [hs] at ha ⊢
        rw [t.setRegion_self]
        omega
      · rwa [t.setRegion_other hs]

/-- What the removal does once the entry holding the range is found. -/
theorem remove_found {a : TableId → ℕ → ℕ → Memblock → Option (ℤ × Memblock)}
    (ht : m.table id = t) (h : Spaced gap t) (hlast : base + size < 2 ^ 32) {i : ℕ}
    (hi : i < t.cnt) (hfound : containingFrom t base (base + size) 0 t.cnt = some i) :
    memblockRemoveWith a id base size m =
      if (t.regions i).base = base ∧ Region.last (t.regions i) = base + size then
        (memblockRemoveRegion t i).map fun t1 => (0, m.setTable id t1)
      else if (t.regions i).base = base then
        some (0, m.setTable id (t.setRegion i ⟨base + size, wrapSub 64 (t.regions i).size size⟩))
      else if Region.last (t.regions i) = base + size then
        some (0, m.setTable id
          (t.setRegion i ⟨(t.regions i).base, wrapSub 64 (t.regions i).size size⟩))
      else
        a id (base + size) (wrapSub 32 (Region.last (t.regions i)) (base + size))
          (m.setTable id
            (t.setRegion i ⟨(t.regions i).base, wrapSub 64 base (t.regions i).base⟩)) := by
  have hf := h.fits i hi
  have hb : (t.regions i).base ≤ Region.last (t.regions i) := Nat.le_add_right _ _
  rw [memblockRemoveWith]
  dsimp only
  rw [ht, wrap_of_lt hlast, hfound]
  dsimp only
  rw [wrap_of_lt (show (t.regions i).base < 2 ^ 32 by omega),
    wrap_of_lt (show (t.regions i).base + (t.regions i).size < 2 ^ 32 from hf)]
  rfl

/-- A removal that touches an end of the entry holding the range subtracts the range. -/
theorem remove_at_end {a : TableId → ℕ → ℕ → Memblock → Option (ℤ × Memblock)}
    (ht : m.table id = t) (h : Spaced gap t) (hsize : 0 < size) {i : ℕ} (hi : i < t.cnt)
    (hin : Within t base size i)
    (hend : (t.regions i).base = base ∨ Region.last (t.regions i) = base + size) :
    ∃ t', memblockRemoveWith a id base size m = some (0, m.setTable id t') ∧
      Becomes gap t t' (bytes t \ Set.Ico base (base + size)) := by
  have hf := h.fits i hi
  obtain ⟨hin1, hin2⟩ := hin
  have hd : ¬ IsDummy t := fun hd => by
    have hz : i = 0 := by
      have := hd.1
      omega
    have hs := hd.2
    rw [← hz] at hs
    rw [Region.last] at hin2
    omega
  have hcnt : t.cnt ≤ t.room := h.cnt_le.trans h.max_le
  have hfound := containingFrom_eq h.fits hi ⟨hin1, hin2⟩
    (fun j hj hjin => by
      have := within_unique h hsize (by omega) hi hjin ⟨hin1, hin2⟩
      omega) t.cnt 0 (Nat.zero_add _) (Nat.zero_le _)
  rw [remove_found ht h (by omega) hi hfound]
  have hsub : wrapSub 64 (t.regions i).size size = (t.regions i).size - size := by
    rw [Region.last] at hf hin2
    exact wrapSub_of_le (by omega) (by omega)
  by_cases hwhole : (t.regions i).base = base ∧ Region.last (t.regions i) = base + size
  · rw [if_pos hwhole]
    obtain ⟨t2, he, hs, hb, hcnt2, hmax, hroom, harr⟩ := removeRegion_spaced gap hi h.cnt_le
      h.max_le h.room_lt (fun k hk _ => ⟨h.fits k hk, h.full hd hk⟩)
      (fun k l hkl hl _ _ => h.apart_lt hkl hl)
    refine ⟨t2, by rw [he]; rfl, hs, ?_, by omega, hmax, hroom, harr⟩
    ext a
    rw [hb]
    simp only [bytes, Set.mem_ofPred_eq, Set.mem_sdiff, Set.mem_Ico]
    constructor
    · rintro ⟨k, hk, hne, ha⟩
      refine ⟨⟨k, hk, ha⟩, fun hr => ?_⟩
      rcases Nat.lt_or_gt_of_ne hne with hlt | hgt
      · have hp := h.apart_lt hlt hi
        omega
      · have hp := h.apart_lt hgt hk
        omega
    · rintro ⟨⟨k, hk, ha⟩, hr⟩
      refine ⟨k, hk, fun he => ?_, ha⟩
      subst he
      omega
  · rw [if_neg hwhole, hsub]
    unfold Region.last at hf hin2 hend hwhole
    by_cases hfront : (t.regions i).base = base
    · rw [if_pos hfront]
      refine ⟨_, rfl, setRegion_spaced h ?_ ?_ ?_,
        bytes_shrink h hi ⟨hin1, hin2⟩ fun a => ?_, Nat.le_succ _, rfl, rfl, rfl⟩ <;>
          simp only [Region.last] <;> omega
    · have hback : (t.regions i).base + (t.regions i).size = base + size :=
        hend.resolve_left hfront
      rw [if_neg hfront, Region.last, if_pos hback]
      refine ⟨_, rfl, setRegion_spaced h ?_ ?_ ?_,
        bytes_shrink h hi ⟨hin1, hin2⟩ fun a => ?_, Nat.le_succ _, rfl, rfl, rfl⟩ <;>
          simp only [Region.last] <;> omega

/-- The table after the removal shortened the entry, before it stores the tail. -/
def shortened (t : MemblockType) (base i : ℕ) : MemblockType :=
  t.setRegion i ⟨(t.regions i).base, base - (t.regions i).base⟩

/-- A removal strictly inside an entry shortens it and inserts the tail. -/
theorem remove_inside {a : TableId → ℕ → ℕ → Memblock → Option (ℤ × Memblock)}
    (ht : m.table id = t) (h : Spaced gap t) (hsize : 0 < size) {i : ℕ} (hi : i < t.cnt)
    (hlo : (t.regions i).base < base) (hhi : base + size < Region.last (t.regions i)) :
    memblockRemoveWith a id base size m =
      a id (base + size) (Region.last (t.regions i) - (base + size))
        (m.setTable id (shortened t base i)) := by
  have hf := h.fits i hi
  have hfound := containingFrom_eq h.fits hi ⟨hlo.le, hhi.le⟩
    (fun j hj hjin => by
      have := within_unique h hsize (by omega) hi hjin ⟨hlo.le, hhi.le⟩
      omega) t.cnt 0 (Nat.zero_add _) (Nat.zero_le _)
  rw [remove_found ht h (by omega) hi hfound, if_neg (by omega), if_neg (by omega),
    if_neg (by omega), wrapSub_of_le hf hhi.le, wrapSub_of_le (by omega) hlo.le, shortened]

/-- The shortened table: the entry ends at the hole, and the tail is clear of every entry. -/
theorem shortened_spec (h : Spaced gap t) {i : ℕ} (hi : i < t.cnt)
    (hlo : (t.regions i).base < base) (hhi : base + size < Region.last (t.regions i)) :
    Spaced gap (shortened t base i) ∧ ¬ IsDummy (shortened t base i) ∧
      bytes (shortened t base i) = bytes t \ Set.Ico base (Region.last (t.regions i)) ∧
      Clear (shortened t base i) (base + size) (Region.last (t.regions i) - (base + size)) := by
  unfold shortened
  set r : Region := ⟨(t.regions i).base, base - (t.regions i).base⟩ with hr
  have hrlast : Region.last r = base := by
    simp only [hr, Region.last]
    omega
  have hpos : 0 < r.size := by
    simp only [hr]
    omega
  refine ⟨setRegion_spaced h hpos (le_refl _) (by omega), fun hd => ?_, ?_, fun k hk => ?_⟩
  · have hz : i = 0 := by
      have hc := hd.1
      rw [MemblockType.setRegion_cnt] at hc
      omega
    have hs := hd.2
    rw [← hz, t.setRegion_self] at hs
    omega
  · have hspan : base + (Region.last (t.regions i) - base) = Region.last (t.regions i) := by omega
    rw [← hspan]
    refine bytes_shrink h hi ⟨hlo.le, by omega⟩ fun a => ?_
    rw [hrlast, hspan]
    simp only [hr]
    omega
  · rw [MemblockType.setRegion_cnt] at hk
    by_cases he : k = i
    · subst he
      rw [t.setRegion_self, hrlast]
      exact Or.inl (by omega)
    · rw [t.setRegion_other he]
      rcases Nat.lt_or_gt_of_ne he with hlt | hgt
      · have hp := h.apart_lt hlt hi
        exact Or.inl (by omega)
      · have hp := h.apart_lt hgt hk
        exact Or.inr (by omega)

/-- Restoring the tail leaves exactly the removed range missing. -/
theorem bytes_split {i : ℕ} (hi : i < t.cnt)
    (hlo : (t.regions i).base < base) (hhi : base + size < Region.last (t.regions i)) :
    bytes t \ Set.Ico base (Region.last (t.regions i)) ∪
        Set.Ico (base + size) (Region.last (t.regions i)) =
      bytes t \ Set.Ico base (base + size) := by
  ext a
  simp only [Set.mem_union, Set.mem_sdiff, Set.mem_Ico]
  have hin : base + size ≤ a ∧ a < Region.last (t.regions i) → a ∈ bytes t := fun ha =>
    ⟨i, hi, by omega, ha.2⟩
  constructor
  · rintro (⟨ha, hn⟩ | ha)
    · exact ⟨ha, by omega⟩
    · exact ⟨hin ha, by omega⟩
  · rintro ⟨ha, hn⟩
    by_cases ht : base + size ≤ a ∧ a < Region.last (t.regions i)
    · exact Or.inr ht
    · exact Or.inl ⟨ha, by omega⟩

/-- A removal within one entry subtracts the range when a split finds a free entry. -/
theorem remove_within (ht : m.table id = t) (h : Spaced gap t) (hgap : gap ≤ 1) (hsize : 0 < size)
    {i : ℕ} (hi : i < t.cnt) (hin : Within t base size i)
    (hroom : (t.regions i).base < base → base + size < Region.last (t.regions i) →
      t.cnt + 1 < t.max) :
    ∃ ret t', 0 ≤ ret ∧
      memblockRemoveWith (memblockAddRegionWith d) id base size m =
        some (ret, m.setTable id t') ∧
      Becomes gap t t' (bytes t \ Set.Ico base (base + size)) := by
  by_cases hend : (t.regions i).base = base ∨ Region.last (t.regions i) = base + size
  · obtain ⟨t', he, hb⟩ := remove_at_end (a := memblockAddRegionWith d) ht h hsize hi hin hend
    exact ⟨0, t', le_refl 0, he, hb⟩
  · have hlo : (t.regions i).base < base := by
      have := hin.1
      omega
    have hhi : base + size < Region.last (t.regions i) := by
      have := hin.2
      omega
    have hfit := h.fits i hi
    have htail : base + size + (Region.last (t.regions i) - (base + size)) =
        Region.last (t.regions i) := by omega
    obtain ⟨hs, hd, hb, hclear⟩ := shortened_spec h hi hlo hhi
    obtain ⟨ret, t', hpos, he, hsp, hbm, hcnt, hmax, hr, harr⟩ := addRegion_clear (d := d)
      (m.table_setTable id (shortened t base i)) hs hgap (Nat.zero_lt_of_lt hi) hd (by omega)
      (by omega) hclear (fun _ => hroom hlo hhi)
    rw [htail, hb, bytes_split hi hlo hhi] at hbm
    refine ⟨ret, t', hpos, ?_, hsp, hbm, hcnt, hmax, hr, harr⟩
    rw [remove_inside ht h hsize hi hlo hhi, he, Memblock.setTable_setTable]

end BiscuitOS.MemblockUpdate
