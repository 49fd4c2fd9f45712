import BiscuitOS.MemblockModel
import BiscuitOS.TransitionRun

/-!
# Region tables as sets of addresses

A well-formed table is sorted, its entries are separated by a stated gap and
no entry wraps. Insertion and removal are characterized entry by entry, then
as union and difference of byte sets.
-/

namespace BiscuitOS.MemblockTable

open MachineWord MemblockModel

/-- First byte after an entry. -/
def Region.last (r : Region) : ℕ := r.base + r.size

/-- The bytes described by the first `cnt` entries. -/
def bytes (t : MemblockType) : Set ℕ :=
  {a | ∃ i < t.cnt, (t.regions i).base ≤ a ∧ a < Region.last (t.regions i)}

/-- Sorted by base, consecutive entries at least `gap` bytes apart, no wrapping; only a
single entry may be empty, which is the dummy of an initial table. -/
structure Spaced (gap : ℕ) (t : MemblockType) : Prop where
  cnt_le : t.cnt ≤ t.max
  max_le : t.max ≤ t.room
  room_lt : t.room < 2 ^ 32
  fits : ∀ i < t.cnt, Region.last (t.regions i) < 2 ^ 32
  filled : ∀ i < t.cnt, t.cnt ≠ 1 → 0 < (t.regions i).size
  apart : ∀ i, i + 1 < t.cnt → Region.last (t.regions i) + gap ≤ (t.regions (i + 1)).base

/-- The range neither is an entry nor touches one at either end. -/
def Untouched (t : MemblockType) (base size i : ℕ) : Prop :=
  t.regions i ≠ ⟨base, size⟩ ∧ (t.regions i).base ≠ base + size ∧
    Region.last (t.regions i) ≠ base

/-- The test of `memblock_add_region` for a table holding only the dummy entry. -/
def IsDummy (t : MemblockType) : Prop := t.cnt = 1 ∧ (t.regions 0).size = 0

variable {gap : ℕ} {t : MemblockType} {base size : ℕ}

/-- In a spaced table every earlier entry ends below every later one. -/
theorem Spaced.apart_lt (h : Spaced gap t) {i j : ℕ} (hij : i < j) (hj : j < t.cnt) :
    Region.last (t.regions i) + gap ≤ (t.regions j).base := by
  induction j with
  | zero => omega
  | succ j ih =>
    have hs := h.apart j hj
    rcases Nat.lt_succ_iff_lt_or_eq.mp hij with hlt | heq
    · have hp := ih hlt (by omega)
      have hb : (t.regions j).base ≤ Region.last (t.regions j) := Nat.le_add_right _ _
      omega
    · rwa [heq]

/-- Adjacency of two ranges that do not wrap. -/
theorem addrsAdjacent_eq {b1 s1 b2 s2 : ℕ} (h1 : b1 + s1 < 2 ^ 32) (h2 : b2 + s2 < 2 ^ 32) :
    memblockAddrsAdjacent b1 s1 b2 s2 =
      if b2 = b1 + s1 then 1 else if b1 = b2 + s2 then -1 else 0 := by
  rw [memblockAddrsAdjacent, wrap_of_lt h1, wrap_of_lt h2]

/-- One round of the coalescing scan on an entry that does not wrap. -/
theorem coalesceScan_succ {i : ℕ} (hfit : Region.last (t.regions i) < 2 ^ 32)
    (hlast : base + size < 2 ^ 32) (n : ℕ) :
    coalesceScan t base size i (n + 1) =
      if t.regions i = ⟨base, size⟩ then .already
      else if (t.regions i).base = base + size then
        .stopped (t.setRegion i ⟨base, (t.regions i).size + size⟩) i 1
      else if Region.last (t.regions i) = base then
        .stopped (t.setRegion i ⟨(t.regions i).base, (t.regions i).size + size⟩) i 1
      else coalesceScan t base size (i + 1) n := by
  rw [coalesceScan]
  cases hr : t.regions i with
  | mk b s =>
    rw [hr] at hfit
    unfold Region.last at hfit ⊢
    dsimp only at hfit ⊢
    have hb : wrap 32 b = b := wrap_of_lt (by omega)
    have hs : wrap 32 s = s := wrap_of_lt (by omega)
    have hsum : wrap 64 (s + size) = s + size := wrap_of_lt (by omega)
    rw [hb, hs, hsum, addrsAdjacent_eq hlast hfit]
    simp only [Region.mk.injEq]
    by_cases heq : b = base ∧ s = size
    · rw [if_pos heq, if_pos heq]
    · rw [if_neg heq, if_neg heq]
      by_cases hdown : b = base + size
      · have hsub : wrapSub 64 b size = base := by
          rw [wrapSub_of_le (by omega) (by omega)]
          omega
        simp only [if_pos hdown, Int.zero_lt_one, if_true, hsub]
      · by_cases hup : base = b + s
        · simp only [if_neg hdown, if_pos hup, if_pos hup.symm]
          rfl
        · have hup' : ¬ b + s = base := fun h => hup h.symm
          simp only [if_neg hdown, if_neg hup, if_neg hup', lt_irrefl, if_false]

/-- The four ways the coalescing scan ends on entries that do not wrap. -/
theorem coalesceScan_cases (hfits : ∀ i < t.cnt, Region.last (t.regions i) < 2 ^ 32)
    (hlast : base + size < 2 ^ 32) (n i : ℕ) (hi : i + n = t.cnt)
    (hbelow : ∀ k < i, Untouched t base size k) :
    (∃ j < t.cnt, t.regions j = ⟨base, size⟩ ∧ coalesceScan t base size i n = .already) ∨
    (∃ j < t.cnt, (∀ k < j, Untouched t base size k) ∧ (t.regions j).base = base + size ∧
      coalesceScan t base size i n =
        .stopped (t.setRegion j ⟨base, (t.regions j).size + size⟩) j 1) ∨
    (∃ j < t.cnt, (∀ k < j, Untouched t base size k) ∧ Region.last (t.regions j) = base ∧
      coalesceScan t base size i n =
        .stopped (t.setRegion j ⟨(t.regions j).base, (t.regions j).size + size⟩) j 1) ∨
    ((∀ k < t.cnt, Untouched t base size k) ∧
      coalesceScan t base size i n = .stopped t t.cnt 0) := by
  induction n generalizing i with
  | zero =>
    have he : i = t.cnt := by omega
    subst he
    exact Or.inr (Or.inr (Or.inr ⟨hbelow, rfl⟩))
  | succ n ih =>
    have hlt : i < t.cnt := by omega
    have hstep := coalesceScan_succ (hfits i hlt) hlast n
    by_cases heq : t.regions i = ⟨base, size⟩
    · rw [if_pos heq] at hstep
      exact Or.inl ⟨i, hlt, heq, hstep⟩
    · by_cases hdown : (t.regions i).base = base + size
      · rw [if_neg heq, if_pos hdown] at hstep
        exact Or.inr (Or.inl ⟨i, hlt, hbelow, hdown, hstep⟩)
      · by_cases hup : Region.last (t.regions i) = base
        · rw [if_neg heq, if_neg hdown, if_pos hup] at hstep
          exact Or.inr (Or.inr (Or.inl ⟨i, hlt, hbelow, hup, hstep⟩))
        · rw [if_neg heq, if_neg hdown, if_neg hup] at hstep
          rw [hstep]
          refine ih (i + 1) (by omega) fun k hk => ?_
          rcases Nat.lt_succ_iff_lt_or_eq.mp hk with h | h
          · exact hbelow k h
          · subst h
            exact ⟨heq, hdown, hup⟩

/-- The entries after the removal shift. -/
theorem shiftDown_eq {room : ℕ} (n : ℕ) (regions : ℕ → Region) (i : ℕ) (hroom : i + n < room) :
    shiftDown room regions i n =
      some fun j => if i ≤ j ∧ j < i + n then regions (j + 1) else regions j := by
  induction n generalizing regions i with
  | zero =>
    rw [shiftDown]
    congr 1
    funext j
    rw [if_neg (by omega)]
  | succ n ih =>
    rw [shiftDown, if_pos (by omega), ih _ _ (by omega)]
    congr 1
    funext j
    by_cases hj : i + 1 ≤ j ∧ j < i + 1 + n
    · rw [if_pos hj, if_pos (by omega), Function.update_of_ne (by omega)]
    · rw [if_neg hj]
      by_cases hi : j = i
      · subst hi
        rw [Function.update_self, if_pos (by omega)]
      · rw [Function.update_of_ne hi, if_neg (by omega)]

/-- Removing an entry of a table in use closes the gap it leaves. -/
theorem removeRegion_eq {r : ℕ} (hr : r < t.cnt) (hroom : t.cnt ≤ t.room) (hlt : t.room < 2 ^ 32) :
    memblockRemoveRegion t r = some { t with
      regions := fun j => if r ≤ j ∧ j < t.cnt - 1 then t.regions (j + 1) else t.regions j
      cnt := t.cnt - 1 } := by
  have hc : wrapSub 64 t.cnt 1 = t.cnt - 1 := wrapSub_of_le (by omega) (by omega)
  have hn : r + (t.cnt - 1 - r) = t.cnt - 1 := by omega
  rw [memblockRemoveRegion, hc, shiftDown_eq _ _ _ (by omega), hn]
  rfl

/-- The entries after the insertion loop: below position `p` unchanged, above it shifted. -/
theorem insertLoop_cases (base size : ℕ) (regions : ℕ → Region) (n : ℕ) :
    (insertLoop base size regions n 0 = regions 0 ∧ (∀ j < n, base < (regions j).base) ∧
      ∀ j, 0 < j → insertLoop base size regions n j =
        if j ≤ n then regions (j - 1) else regions j) ∨
    ∃ p, 0 < p ∧ p ≤ n ∧ (regions (p - 1)).base ≤ base ∧
      (∀ j, p ≤ j → j < n → base < (regions j).base) ∧
      ∀ j, insertLoop base size regions n j =
        if j < p ∨ n < j then regions j
        else if j = p then ⟨base, size⟩ else regions (j - 1) := by
  induction n generalizing regions with
  | zero =>
    refine Or.inl ⟨rfl, fun j hj => by omega, fun j hj => ?_⟩
    rw [if_neg (by omega), insertLoop]
  | succ n ih =>
    by_cases hlt : base < (regions n).base
    · have hu : ∀ j, j ≠ n + 1 →
          Function.update regions (n + 1) (regions n) j = regions j := fun j hj =>
        Function.update_of_ne hj _ _
      have hs : Function.update regions (n + 1) (regions n) (n + 1) = regions n :=
        Function.update_self _ _ _
      rw [insertLoop, if_pos hlt]
      rcases ih (Function.update regions (n + 1) (regions n)) with
        ⟨h0, hall, hsh⟩ | ⟨p, hp0, hpn, hle, hall, hsh⟩
      · refine Or.inl ⟨by rw [h0, hu 0 (by omega)], fun j hj => ?_, fun j hj => ?_⟩
        · by_cases he : j = n
          · rwa [he]
          · have h := hall j (by omega)
            rwa [hu j (by omega)] at h
        · rw [hsh j hj]
          by_cases hjn : j ≤ n
          · rw [if_pos hjn, if_pos (by omega), hu _ (by omega)]
          · rw [if_neg hjn]
            by_cases he : j = n + 1
            · subst he
              rw [hs, if_pos (le_refl _)]
              rfl
            · rw [hu j he, if_neg (by omega)]
      · refine Or.inr ⟨p, hp0, by omega, by rwa [hu _ (by omega)] at hle, fun j hj hjn => ?_,
          fun j => ?_⟩
        · by_cases he : j = n
          · rwa [he]
          · have h := hall j hj (by omega)
            rwa [hu j (by omega)] at h
        · rw [hsh j]
          by_cases hout : j < p ∨ n < j
          · rw [if_pos hout]
            by_cases he : j = n + 1
            · subst he
              rw [hs, if_neg (by omega), if_neg (by omega)]
              rfl
            · rw [hu j he, if_pos (by omega)]
          · have hin : ¬ (j < p ∨ n + 1 < j) := by omega
            rw [if_neg hout, if_neg hin, hu (j - 1) (by omega)]
    · refine Or.inr ⟨n + 1, by omega, le_refl _, Nat.le_of_not_lt hlt, fun j hj hjn => by omega,
        fun j => ?_⟩
      rw [insertLoop, if_neg hlt]
      by_cases he : j = n + 1
      · subst he
        rw [Function.update_self, if_neg (by omega), if_pos rfl]
      · rw [Function.update_of_ne he, if_pos (by omega)]

/-- Insertion into a table in use puts the range right after the last base not above it. -/
theorem insertRegion_eq (h : Spaced gap t) (hc : 0 < t.cnt) (base size : ℕ) :
    ∃ p ≤ t.cnt, (∀ j < p, p = j + 1 → (t.regions j).base ≤ base) ∧
      (∀ j, p ≤ j → j < t.cnt → base < (t.regions j).base) ∧
      insertRegion t base size = { t with
        regions := fun j => if j < p ∨ t.cnt < j then t.regions j
          else if j = p then ⟨base, size⟩ else t.regions (j - 1)
        cnt := t.cnt + 1 } := by
  have hlt : t.cnt < 2 ^ 32 := lt_of_le_of_lt (h.cnt_le.trans h.max_le) h.room_lt
  have hw : wrap 64 (t.cnt + 1) = t.cnt + 1 := wrap_of_lt (by omega)
  rcases insertLoop_cases base size t.regions t.cnt with
    ⟨h0, hall, hsh⟩ | ⟨p, hp0, hpn, hle, hall, hsh⟩
  · refine ⟨0, by omega, fun j hj => by omega, fun j _ hj => hall j hj, ?_⟩
    rw [insertRegion, hw, h0, if_pos (hall 0 hc)]
    congr 1
    funext j
    by_cases hj : j = 0
    · subst hj
      rw [Function.update_self, if_neg (by omega), if_pos rfl]
    · rw [Function.update_of_ne hj, hsh j (by omega)]
      by_cases hjc : j ≤ t.cnt
      · rw [if_pos hjc, if_neg (by omega), if_neg hj]
      · rw [if_neg hjc, if_pos (by omega)]
  · refine ⟨p, hpn, fun j hj he => ?_, hall, ?_⟩
    · subst he
      exact hle
    · have hz : insertLoop base size t.regions t.cnt 0 = t.regions 0 := by
        rw [hsh 0, if_pos (by omega)]
      have hb : ¬ base < (t.regions 0).base := by
        by_cases hp : p - 1 = 0
        · rw [hp] at hle
          omega
        · have hs := h.apart_lt (show 0 < p - 1 by omega) (by omega)
          have hf : (t.regions 0).base ≤ Region.last (t.regions 0) := Nat.le_add_right _ _
          omega
      rw [insertRegion, hw, hz, if_neg hb]
      congr 1
      funext j
      exact hsh j

/-- No entry shares a byte with the range. -/
def Clear (t : MemblockType) (base size : ℕ) : Prop :=
  ∀ i < t.cnt, Region.last (t.regions i) ≤ base ∨ base + size ≤ (t.regions i).base

/-- Spaced everywhere except possibly after entry `j`, and without empty entries. -/
structure SpacedBut (gap : ℕ) (t : MemblockType) (j : ℕ) : Prop where
  spaced : Spaced 0 t
  full : ∀ i < t.cnt, 0 < (t.regions i).size
  others : ∀ i, i ≠ j → i + 1 < t.cnt → Region.last (t.regions i) + gap ≤ (t.regions (i + 1)).base

/-- Every entry of a table in use is filled. -/
theorem Spaced.full (h : Spaced gap t) (hd : ¬ IsDummy t) {i : ℕ} (hi : i < t.cnt) :
    0 < (t.regions i).size := by
  by_cases hc : t.cnt = 1
  · have hz : i = 0 := by omega
    subst hz
    exact Nat.pos_of_ne_zero fun h0 => hd ⟨hc, h0⟩
  · exact h.filled i hi hc

/-- A smaller gap is a weaker requirement. -/
theorem Spaced.mono {gap' : ℕ} (h : Spaced gap t) (hle : gap' ≤ gap) : Spaced gap' t where
  cnt_le := h.cnt_le
  max_le := h.max_le
  room_lt := h.room_lt
  fits := h.fits
  filled := h.filled
  apart i hi := le_trans (Nat.add_le_add_left hle _) (h.apart i hi)

/-- A table with the same entries in use is as well formed and describes the same bytes. -/
theorem Spaced.of_entries {t' : MemblockType} (h : Spaced gap t) (hc : t'.cnt = t.cnt)
    (hcnt : t'.cnt ≤ t'.max) (hmax : t'.max ≤ t'.room) (hroom : t'.room < 2 ^ 32)
    (hsame : ∀ i < t.cnt, t'.regions i = t.regions i) : Spaced gap t' ∧ bytes t' = bytes t := by
  refine ⟨⟨hcnt, hmax, hroom, fun i hi => ?_, fun i hi hne => ?_, fun i hi => ?_⟩, ?_⟩
  · rw [hc] at hi
    rw [hsame i hi]
    exact h.fits i hi
  · rw [hc] at hi hne
    rw [hsame i hi]
    exact h.filled i hi hne
  · rw [hc] at hi
    rw [hsame i (by omega), hsame (i + 1) hi]
    exact h.apart i hi
  · ext a
    simp only [bytes, hc, Set.mem_ofPred_eq]
    constructor
    · rintro ⟨i, hi, ha⟩
      rw [hsame i hi] at ha
      exact ⟨i, hi, ha⟩
    · rintro ⟨i, hi, ha⟩
      refine ⟨i, hi, ?_⟩
      rw [hsame i hi]
      exact ha

/-- A table holding only the dummy describes no byte. -/
theorem bytes_dummy (hd : IsDummy t) : bytes t = ∅ := by
  ext a
  simp only [bytes, Set.mem_ofPred_eq, Set.mem_empty_iff_false, iff_false, not_exists, not_and]
  intro i hi hb
  have hz : i = 0 := by
    have := hd.1
    omega
  subst hz
  rw [Region.last, hd.2]
  omega

/-- An emptied table describes no byte. -/
theorem bytes_emptied (hc : t.cnt = 0) : bytes t = ∅ := by
  ext a
  simp only [bytes, Set.mem_ofPred_eq, Set.mem_empty_iff_false, iff_false, not_exists, not_and]
  intro i hi
  omega

/-- The initial tables hold only the dummy entry. -/
theorem memblockInit_table (id : TableId) :
    Spaced 1 (memblockInit.table id) ∧ bytes (memblockInit.table id) = ∅ := by
  have ht : memblockInit.table id = staticTable := by cases id <;> rfl
  have hr : staticTable.regions 0 = ⟨0, 0⟩ := by decide
  have hd : IsDummy staticTable := ⟨rfl, by rw [hr]⟩
  rw [ht]
  refine ⟨⟨by decide, by decide, by decide, fun i hi => ?_, fun i _ hne => absurd rfl hne,
    fun i hi => ?_⟩, bytes_dummy hd⟩
  · have hz : i = 0 := by
      have hc : staticTable.cnt = 1 := rfl
      omega
    rw [hz, hr]
    decide
  · have hc : staticTable.cnt = 1 := rfl
    omega

/-- Bytes disjoint from a nonempty range leave every entry clear of it. -/
theorem clear_of_disjoint (h : Spaced gap t) (hd : ¬ IsDummy t) (hsize : 0 < size)
    (hb : Disjoint (bytes t) (Set.Ico base (base + size))) : Clear t base size := by
  intro i hi
  have hf := h.full hd hi
  by_contra hc
  push Not at hc
  obtain ⟨h1, h2⟩ := hc
  have hm : Nat.max (t.regions i).base base ∈ bytes t :=
    ⟨i, hi, Nat.le_max_left _ _, Nat.max_lt.mpr ⟨Nat.lt_add_of_pos_right hf, h1⟩⟩
  have hr : Nat.max (t.regions i).base base ∈ Set.Ico base (base + size) :=
    ⟨Nat.le_max_right _ _, Nat.max_lt.mpr ⟨h2, by omega⟩⟩
  exact Set.disjoint_left.mp hb hm hr

/-- Replacing an entry by one that covers exactly its bytes and the range adds the range. -/
theorem bytes_extend {j : ℕ} {r : Region} (hj : j < t.cnt)
    (hcover : ∀ a, r.base ≤ a ∧ a < Region.last r ↔
      (t.regions j).base ≤ a ∧ a < Region.last (t.regions j) ∨ base ≤ a ∧ a < base + size) :
    bytes (t.setRegion j r) = bytes t ∪ Set.Ico base (base + size) := by
  ext a
  simp only [bytes, MemblockType.setRegion, Set.mem_ofPred_eq, Set.mem_union, Set.mem_Ico]
  constructor
  · rintro ⟨i, hi, ha⟩
    by_cases he : i = j
    · subst he
      rw [Function.update_self] at ha
      rcases (hcover a).mp ha with h | h
      · exact Or.inl ⟨i, hi, h⟩
      · exact Or.inr h
    · rw [Function.update_of_ne he] at ha
      exact Or.inl ⟨i, hi, ha⟩
  · rintro (⟨i, hi, ha⟩ | ha)
    · by_cases he : i = j
      · subst he
        refine ⟨i, hi, ?_⟩
        rw [Function.update_self]
        exact (hcover a).mpr (Or.inl ha)
      · refine ⟨i, hi, ?_⟩
        rw [Function.update_of_ne he]
        exact ha
    · refine ⟨j, hj, ?_⟩
      rw [Function.update_self]
      exact (hcover a).mpr (Or.inr ha)

/-- An extended entry keeps the table spaced except possibly behind it. -/
theorem spacedBut_extend (h : Spaced gap t) (hd : ¬ IsDummy t) {j : ℕ} {r : Region}
    (hpos : 0 < r.size) (hlast : Region.last r < 2 ^ 32)
    (hprev : ∀ i, i + 1 = j → Region.last (t.regions i) + gap ≤ r.base)
    (hnext : j + 1 < t.cnt → Region.last r ≤ (t.regions (j + 1)).base) :
    SpacedBut gap (t.setRegion j r) j := by
  have hfull : ∀ i < t.cnt, 0 < (Function.update t.regions j r i).size := fun i hi => by
    by_cases he : i = j
    · subst he
      rwa [Function.update_self]
    · rw [Function.update_of_ne he]
      exact h.full hd hi
  have hothers : ∀ i, i ≠ j → i + 1 < t.cnt →
      Region.last (Function.update t.regions j r i) + gap ≤
        (Function.update t.regions j r (i + 1)).base := fun i he hi => by
    rw [Function.update_of_ne he]
    by_cases hs : i + 1 = j
    · rw [hs, Function.update_self]
      exact hprev i hs
    · rw [Function.update_of_ne hs]
      exact h.apart i hi
  refine ⟨⟨h.cnt_le, h.max_le, h.room_lt, fun i hi => ?_, fun i hi _ => hfull i hi,
    fun i hi => ?_⟩, hfull, hothers⟩
  · dsimp only [MemblockType.setRegion]
    by_cases he : i = j
    · subst he
      rwa [Function.update_self]
    · rw [Function.update_of_ne he]
      exact h.fits i hi
  · dsimp only [MemblockType.setRegion]
    by_cases he : i = j
    · subst he
      rw [Function.update_self, Function.update_of_ne (by omega)]
      exact hnext hi
    · exact le_trans (Nat.add_le_add_left (Nat.zero_le gap) _) (hothers i he hi)

/-- The plug test fires exactly when the entry meets its successor. -/
theorem SpacedBut.adjacent_iff {j : ℕ} (h : SpacedBut gap t j) (hj : j + 1 < t.cnt) :
    memblockRegionsAdjacent t j (j + 1) ≠ 0 ↔
      Region.last (t.regions j) = (t.regions (j + 1)).base := by
  have hf := h.spaced.fits j (by omega)
  have hg := h.spaced.fits (j + 1) hj
  have ha := h.spaced.apart j hj
  have hp := h.full (j + 1) hj
  unfold Region.last at hf hg ha ⊢
  rw [memblockRegionsAdjacent, wrap_of_lt (show (t.regions j).base < 2 ^ 32 by omega),
    wrap_of_lt (show (t.regions j).size < 2 ^ 32 by omega),
    wrap_of_lt (show (t.regions (j + 1)).base < 2 ^ 32 by omega),
    wrap_of_lt (show (t.regions (j + 1)).size < 2 ^ 32 by omega), addrsAdjacent_eq hf hg]
  by_cases he : (t.regions (j + 1)).base = (t.regions j).base + (t.regions j).size
  · rw [if_pos he]
    exact ⟨fun _ => he.symm, fun _ => by decide⟩
  · rw [if_neg he, if_neg (by omega)]
    exact ⟨fun hc => absurd rfl hc, fun hc => absurd hc.symm he⟩

/-- Entries before the marked one and after it are spaced from every later entry. -/
theorem SpacedBut.apart_lt {j : ℕ} (h : SpacedBut gap t j) {i k : ℕ} (hij : i ≠ j) (hik : i < k)
    (hk : k < t.cnt) : Region.last (t.regions i) + gap ≤ (t.regions k).base := by
  have ho := h.others i hij (by omega)
  by_cases he : k = i + 1
  · rwa [he]
  · have hs := h.spaced.apart_lt (show i + 1 < k by omega) hk
    have hb : (t.regions (i + 1)).base ≤ Region.last (t.regions (i + 1)) := Nat.le_add_right _ _
    omega

/-- Removing an entry keeps the bytes of the others and, if these are spaced, the spacing. -/
theorem removeRegion_spaced (gap : ℕ) {r : ℕ} (hr : r < t.cnt) (hc : t.cnt ≤ t.max) (hm : t.max ≤ t.room)
    (hlt : t.room < 2 ^ 32)
    (hentry : ∀ i < t.cnt, i ≠ r → Region.last (t.regions i) < 2 ^ 32 ∧ 0 < (t.regions i).size)
    (hpair : ∀ i k, i < k → k < t.cnt → i ≠ r → k ≠ r →
      Region.last (t.regions i) + gap ≤ (t.regions k).base) :
    ∃ t2, memblockRemoveRegion t r = some t2 ∧ Spaced gap t2 ∧
      (∀ a, a ∈ bytes t2 ↔
        ∃ i < t.cnt, i ≠ r ∧ (t.regions i).base ≤ a ∧ a < Region.last (t.regions i)) ∧
      t2.cnt = t.cnt - 1 ∧ t2.max = t.max ∧ t2.room = t.room ∧ t2.array = t.array := by
  let skip : ℕ → ℕ := fun i => if r ≤ i then i + 1 else i
  have hskip : ∀ i < t.cnt - 1, (if r ≤ i ∧ i < t.cnt - 1 then t.regions (i + 1)
      else t.regions i) = t.regions (skip i) ∧ skip i < t.cnt ∧ skip i ≠ r := fun i hi => by
    dsimp only [skip]
    by_cases hri : r ≤ i
    · rw [if_pos ⟨hri, hi⟩, if_pos hri]
      exact ⟨rfl, by omega, by omega⟩
    · rw [if_neg (by omega), if_neg hri]
      exact ⟨rfl, by omega, by omega⟩
  have hmono : ∀ i, skip i < skip (i + 1) := fun i => by
    dsimp only [skip]
    split <;> split <;> omega
  rw [removeRegion_eq hr (by omega) hlt]
  refine ⟨_, rfl, ⟨by dsimp only; omega, hm, hlt, fun i hi => ?_, fun i hi _ => ?_, fun i hi => ?_⟩,
    fun a => ?_, rfl, rfl, rfl, rfl⟩
  · dsimp only at hi ⊢
    obtain ⟨he, hs, hne⟩ := hskip i hi
    rw [he]
    exact (hentry _ hs hne).1
  · dsimp only at hi ⊢
    obtain ⟨he, hs, hne⟩ := hskip i hi
    rw [he]
    exact (hentry _ hs hne).2
  · dsimp only at hi ⊢
    obtain ⟨he, _, hne⟩ := hskip i (by omega)
    obtain ⟨he', hs', hne'⟩ := hskip (i + 1) hi
    rw [he, he']
    exact hpair _ _ (hmono i) hs' hne hne'
  · constructor
    · rintro ⟨i, hi, ha⟩
      dsimp only at hi ha
      obtain ⟨he, hs, hne⟩ := hskip i hi
      rw [he] at ha
      exact ⟨skip i, hs, hne, ha⟩
    · rintro ⟨i, hi, hne, ha⟩
      have hback : ∃ k < t.cnt - 1, skip k = i := by
        dsimp only [skip]
        by_cases hri : i < r
        · exact ⟨i, by omega, if_neg (by omega)⟩
        · exact ⟨i - 1, by omega, by rw [if_pos (by omega)]; omega⟩
      obtain ⟨k, hk, hki⟩ := hback
      refine ⟨k, hk, ?_⟩
      dsimp only
      rw [(hskip k hk).1, hki]
      exact ha

/-- Plugging the hole behind an entry keeps the bytes and restores the spacing. -/
theorem SpacedBut.coalesce {j : ℕ} (h : SpacedBut gap t j) (hj : j + 1 < t.cnt)
    (hmeet : Region.last (t.regions j) = (t.regions (j + 1)).base) :
    ∃ t2, memblockCoalesceRegions t j (j + 1) = some t2 ∧ Spaced gap t2 ∧ bytes t2 = bytes t ∧
      t2.cnt = t.cnt - 1 ∧ t2.max = t.max ∧ t2.room = t.room ∧ t2.array = t.array := by
  have hg := h.spaced.fits (j + 1) hj
  have hp := h.full j (by omega)
  unfold Region.last at hg hmeet
  have hsum : wrap 64 ((t.regions j).size + (t.regions (j + 1)).size) =
      (t.regions j).size + (t.regions (j + 1)).size := wrap_of_lt (by omega)
  set merged : Region := ⟨(t.regions j).base, (t.regions j).size + (t.regions (j + 1)).size⟩
    with hmerged
  have hlast : Region.last merged = Region.last (t.regions (j + 1)) := by
    simp only [hmerged, Region.last]
    omega
  have hself : (t.setRegion j merged).regions j = merged := t.setRegion_self j merged
  have hother : ∀ i, i ≠ j → (t.setRegion j merged).regions i = t.regions i := fun i hi =>
    t.setRegion_other hi merged
  obtain ⟨t2, he, hs, hb, hcnt, hmax, hroom, harr⟩ :=
    removeRegion_spaced gap (t := t.setRegion j merged) (r := j + 1) hj h.spaced.cnt_le
      h.spaced.max_le h.spaced.room_lt
      (fun i hi hne => by
        by_cases hij : i = j
        · rw [hij, hself, hlast]
          exact ⟨h.spaced.fits _ hj, by simp only [hmerged]; omega⟩
        · rw [hother i hij]
          exact ⟨h.spaced.fits i hi, h.full i hi⟩)
      (fun i k hik hk hi hkr => by
        by_cases hij : i = j
        · rw [hij, hself, hlast, hother k (by omega)]
          exact h.apart_lt (by omega) (by omega) hk
        · rw [hother i hij]
          by_cases hkj : k = j
          · rw [hkj, hself]
            exact h.apart_lt hij (by omega) (by omega)
          · rw [hother k hkj]
            exact h.apart_lt hij hik hk)
  refine ⟨t2, by rw [memblockCoalesceRegions, hsum]; exact he, hs, ?_, hcnt, hmax, hroom, harr⟩
  ext a
  rw [hb]
  constructor
  · rintro ⟨i, hi, hne, ha⟩
    by_cases hij : i = j
    · rw [hij, hself, hlast] at ha
      by_cases hs : a < Region.last (t.regions j)
      · exact ⟨j, by omega, ha.1, hs⟩
      · refine ⟨j + 1, hj, ?_, ha.2⟩
        rw [Region.last] at hs
        omega
    · rw [hother i hij] at ha
      exact ⟨i, hi, ha⟩
  · rintro ⟨i, hi, ha⟩
    by_cases hij : i = j ∨ i = j + 1
    · refine ⟨j, by dsimp only [MemblockType.setRegion_cnt]; omega, by omega, ?_⟩
      rw [hself, hlast]
      rcases hij with hij | hij
      · rw [hij, Region.last] at ha
        refine ⟨ha.1, ?_⟩
        rw [Region.last]
        omega
      · rw [hij] at ha
        simp only [hmerged]
        exact ⟨by omega, ha.2⟩
    · refine ⟨i, hi, by omega, ?_⟩
      rw [hother i (by omega)]
      exact ha

end BiscuitOS.MemblockTable
