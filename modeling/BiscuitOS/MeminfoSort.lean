import BiscuitOS.HeapOrder
import BiscuitOS.MeminfoModel

/-!
# Sorting the memory banks

`sort` of `lib/sort.c` as `arm_memblock_init` calls it, on the places of the
array `meminfo.bank`. A comparison that reads behind the eight banks of the
array has no result. The loop that builds the heap tests its own variable
instead of the place an element has sunk to, so it looks behind the banks in
use whenever an element comes to rest without children.
-/

namespace BiscuitOS.MeminfoSort

open MachineWord HeapOrder MeminfoModel

/-- `meminfo_cmp`. -/
def meminfoCmp (a b : Membank) : ℤ :=
  let cmp := toSigned 64 (wrapSub 64 (bankPfnStart a) (bankPfnStart b))
  if cmp < 0 then -1 else if 0 < cmp then 1 else 0

/-- `cmp_func` on two places of the array. -/
def compareBanks (bank : ℕ → Membank) (i j : ℕ) : Option ℤ :=
  if i < maxBanks ∧ j < maxBanks then some (meminfoCmp (bank i) (bank j)) else none

/-- `c`: the child of a place that an element may sink to, among the first `m` banks. -/
def childOf (bank : ℕ → Membank) (m r : ℕ) : Option ℕ :=
  let c := r * 2 + 1
  if c + 1 < m then (compareBanks bank c (c + 1)).map fun order => if order < 0 then c + 1 else c
  else some c

/-- An inner loop of `sort` from place `r`, with its condition and the rounds allowed. -/
def siftDown (go : ℕ → Bool) (m : ℕ) : ℕ → (ℕ → Membank) → ℕ → Option (ℕ → Membank)
  | 0, _, _ => none
  | fuel + 1, bank, r =>
    if go r then
      (childOf bank m r).bind fun c =>
        (compareBanks bank r c).bind fun order =>
          if 0 ≤ order then some bank else siftDown go m fuel (swap bank r c) c
    else some bank

/-- The first loop of `sort`, from place `k - 1` down. -/
def heapify (m : ℕ) : ℕ → (ℕ → Membank) → Option (ℕ → Membank)
  | 0, bank => some bank
  | k + 1, bank =>
    (siftDown (fun _ => decide (k * 2 + 1 < m)) m (maxBanks + 1) bank k).bind (heapify m k)

/-- The second loop of `sort`, from place `k` down. -/
def sortDown : ℕ → (ℕ → Membank) → Option (ℕ → Membank)
  | 0, bank => some bank
  | k + 1, bank =>
    (siftDown (fun r => decide (r * 2 + 1 < k + 1)) (k + 1) (maxBanks + 1) (swap bank 0 (k + 1)) 0).bind
      (sortDown k)

/-- `sort` on the first `num` banks. -/
def sortBanks (num : ℕ) (bank : ℕ → Membank) : Option (ℕ → Membank) :=
  (heapify num (num / 2) bank).bind (sortDown (num - 1))

/-- A bank does not start on a later page. -/
def Earlier (a b : Membank) : Prop := bankPfnStart a ≤ bankPfnStart b

instance : DecidableRel Earlier := fun a b =>
  inferInstanceAs (Decidable (bankPfnStart a ≤ bankPfnStart b))

/-- While the heap is built, a bank that comes to rest has a child, or the entry in the place of one
lies in the array and is not later. -/
def RestsInside (bank : ℕ → Membank) (m : ℕ) : ℕ → Prop
  | 0 => True
  | k + 1 =>
    let sunk := sink Earlier bank m k m
    (2 * sunk.2 + 1 < m ∨
      2 * sunk.2 + 1 < maxBanks ∧ Earlier (sunk.1 (2 * sunk.2 + 1)) (sunk.1 sunk.2)) ∧
      RestsInside sunk.1 m k

instance (bank : ℕ → Membank) (m : ℕ) : ∀ k, Decidable (RestsInside bank m k)
  | 0 => isTrue trivial
  | k + 1 =>
    have : Decidable (RestsInside (sink Earlier bank m k m).1 m k) :=
      instDecidableRestsInside (sink Earlier bank m k m).1 m k
    inferInstanceAs (Decidable (_ ∧ _))

/-- The entries of the array are words. -/
def Bounded (bank : ℕ → Membank) : Prop := ∀ i, (bank i).start < 2 ^ 32

variable {bank : ℕ → Membank} {go : ℕ → Bool} {m k r fuel : ℕ}

/-- Pages compare in total. -/
theorem earlier_total : TotalPreorderOn Earlier Set.univ :=
  ⟨fun _ _ _ _ => le_total _ _, fun _ _ _ _ _ _ => le_trans⟩

/-- An exchange keeps the entries words. -/
theorem Bounded.swap (h : Bounded bank) (r c : ℕ) : Bounded (swap bank r c) := fun _ => h _

/-- The sign of a comparison is the order of the pages. -/
theorem meminfoCmp_neg {a b : Membank} (ha : a.start < 2 ^ 32) (hb : b.start < 2 ^ 32) :
    meminfoCmp a b < 0 ↔ ¬Earlier b a := by
  have hpage : ∀ x : ℕ, x >>> 12 = x / 4096 := fun x => Nat.shiftRight_eq_div_pow x 12
  rw [meminfoCmp, Earlier, bankPfnStart, bankPfnStart, hpage, hpage]
  generalize ha' : a.start / 4096 = p
  generalize hb' : b.start / 4096 = q
  have hp : p < 2 ^ 20 := by omega
  have hq : q < 2 ^ 20 := by omega
  clear ha' hb' ha hb hpage
  have hsign : toSigned 64 (wrapSub 64 p q) = (p : ℤ) - q := by
    rw [toSigned, wrapSub, Int.bmod_def]
    split_ifs <;> omega
  rw [hsign]
  split_ifs <;> omega

/-- The child chosen is the greater one. -/
theorem childOf_eq (h : Bounded bank) (hm : m ≤ maxBanks) :
    childOf bank m r = some (greaterChild Earlier bank m r) := by
  have hplace : r * 2 + 1 = 2 * r + 1 := by omega
  rw [childOf, greaterChild]
  rw [hplace]
  by_cases hsecond : 2 * r + 2 < m
  · rw [if_pos hsecond, compareBanks, if_pos ⟨by omega, by omega⟩, Option.map_some]
    simp only [meminfoCmp_neg (h _) (h _), hsecond, true_and]
  · rw [if_neg hsecond, if_neg fun hc => hsecond hc.1]

/-- One round on a place with a child. -/
theorem siftDown_round (h : Bounded bank) (hm : m ≤ maxBanks) (hgo : go r = true) (hr : 2 * r + 1 < m) :
    siftDown go m (fuel + 1) bank r =
      if Earlier (bank (greaterChild Earlier bank m r)) (bank r) then some bank
      else siftDown go m fuel (swap bank r (greaterChild Earlier bank m r))
        (greaterChild Earlier bank m r) := by
  obtain ⟨-, hcm⟩ := greaterChild_spec Earlier bank hr
  rw [siftDown, if_pos hgo, childOf_eq h hm, Option.bind_some, compareBanks,
    if_pos ⟨by omega, by omega⟩, Option.bind_some]
  simp only [← not_lt, meminfoCmp_neg (h _) (h _), not_not]

/-- The inner loop of the second phase lets an element sink. -/
theorem siftDown_sink (h : Bounded bank) (hm : m ≤ maxBanks) (hfuel : m ≤ r + fuel) :
    siftDown (fun r => decide (r * 2 + 1 < m)) m (fuel + 1) bank r =
      some (sink Earlier bank m r fuel).1 := by
  induction fuel generalizing bank r with
  | zero =>
    have hstop : decide (r * 2 + 1 < m) = false := decide_eq_false (by omega)
    rw [siftDown, hstop, if_neg (by decide), sink]
  | succ fuel ih =>
    rw [sink]
    by_cases hr : 2 * r + 1 < m
    · have hgo : decide (r * 2 + 1 < m) = true := decide_eq_true (by omega)
      obtain ⟨hchild, -⟩ := greaterChild_spec Earlier bank hr
      rw [IsChild] at hchild
      rw [siftDown_round h hm hgo hr, if_pos hr]
      split_ifs
      · rfl
      · exact ih (h.swap _ _) (by omega)
    · have hstop : decide (r * 2 + 1 < m) = false := decide_eq_false (by omega)
      rw [siftDown, hstop, if_neg (by decide), if_neg hr]

/-- The inner loop of the first phase lets an element sink, when it comes to rest inside. -/
theorem siftDown_rests (h : Bounded bank) (hm : m ≤ maxBanks) (hgo : ∀ r, go r = true) (hr : r < m)
    (hfuel : m ≤ r + fuel)
    (hrests : 2 * (sink Earlier bank m r fuel).2 + 1 < m ∨
      2 * (sink Earlier bank m r fuel).2 + 1 < maxBanks ∧
        Earlier ((sink Earlier bank m r fuel).1 (2 * (sink Earlier bank m r fuel).2 + 1))
          ((sink Earlier bank m r fuel).1 (sink Earlier bank m r fuel).2)) :
    siftDown go m (fuel + 1) bank r = some (sink Earlier bank m r fuel).1 := by
  induction fuel generalizing bank r with
  | zero => omega
  | succ fuel ih =>
    rw [sink] at hrests ⊢
    by_cases hc : 2 * r + 1 < m
    · obtain ⟨hchild, hcm⟩ := greaterChild_spec Earlier bank hc
      rw [IsChild] at hchild
      rw [siftDown_round h hm (hgo r) hc, if_pos hc]
      rw [if_pos hc] at hrests
      split_ifs at hrests ⊢
      · rfl
      · exact ih (h.swap _ _) hcm (by omega) hrests
    · rw [if_neg hc] at hrests ⊢
      obtain ⟨hin, hle⟩ := hrests.resolve_left hc
      have hplace : r * 2 + 1 = 2 * r + 1 := by omega
      rw [siftDown, if_pos (hgo r), childOf]
      dsimp only
      rw [hplace, if_neg (by omega), Option.bind_some, compareBanks, if_pos ⟨by omega, hin⟩,
        Option.bind_some, if_pos]
      rw [← not_lt, meminfoCmp_neg (h _) (h _), not_not]
      exact hle

/-- The inner loop of the first phase has no result when an element comes to rest where the entry
in the place of its child lies behind the array. -/
theorem siftDown_escapes (h : Bounded bank) (hm : m ≤ maxBanks) (hgo : ∀ r, go r = true) (hr : r < m)
    (hfuel : m ≤ r + fuel) (hrests : maxBanks ≤ 2 * (sink Earlier bank m r fuel).2 + 1) :
    siftDown go m (fuel + 1) bank r = none := by
  induction fuel generalizing bank r with
  | zero => omega
  | succ fuel ih =>
    rw [sink] at hrests
    by_cases hc : 2 * r + 1 < m
    · obtain ⟨hchild, hcm⟩ := greaterChild_spec Earlier bank hc
      rw [IsChild] at hchild
      rw [siftDown_round h hm (hgo r) hc]
      rw [if_pos hc] at hrests
      split_ifs at hrests ⊢
      · dsimp only at hrests
        omega
      · exact ih (h.swap _ _) hcm (by omega) hrests
    · rw [if_neg hc] at hrests
      dsimp only at hrests
      have hplace : r * 2 + 1 = 2 * r + 1 := by omega
      rw [siftDown, if_pos (hgo r), childOf]
      rw [hplace, if_neg (by omega), Option.bind_some, compareBanks, if_neg (by omega), Option.bind_none]

/-- Sinking keeps the entries words. -/
theorem Bounded.sink (h : Bounded bank) (hr : r < m) (fuel : ℕ) :
    Bounded (HeapOrder.sink Earlier bank m r fuel).1 := by
  intro i
  obtain ⟨-, hother, hin⟩ := sink_spec (n := m) Earlier bank fuel hr le_rfl
  by_cases hi : i < m
  · obtain ⟨j, -, heq⟩ := hin i hi
    rw [heq]
    exact h j
  · rw [hother i (.inr (by omega))]
    exact h i

/-- The first phase builds a heap when every bank comes to rest inside. -/
theorem heapify_rests (h : Bounded bank) (hm : m ≤ maxBanks) (hk : 2 * k ≤ m) (hrests : RestsInside bank m k) :
    heapify m k bank = some (build Earlier bank m k) := by
  induction k generalizing bank with
  | zero => rfl
  | succ k ih =>
    obtain ⟨hfirst, hrest⟩ := hrests
    have hgo : decide (k * 2 + 1 < m) = true := decide_eq_true (by omega)
    have hfuel := @sink_fuel _ Earlier bank m k m _ maxBanks (Nat.le_add_left m k) (by omega)
    rw [hfuel] at hfirst hrest
    rw [heapify, build, siftDown_rests h hm (fun _ => hgo) (by omega) (by omega) hfirst,
      Option.bind_some, ih (h.sink (by omega) _) (by omega) hrest, hfuel]

/-- It has no result otherwise, with entries of page zero behind the banks. -/
theorem heapify_escapes (h : Bounded bank) (hm : m ≤ maxBanks) (hk : 2 * k ≤ m)
    (hzero : ∀ i, m ≤ i → bankPfnStart (bank i) = 0) (hrests : ¬RestsInside bank m k) :
    heapify m k bank = none := by
  induction k generalizing bank with
  | zero => exact absurd trivial hrests
  | succ k ih =>
    have hgo : decide (k * 2 + 1 < m) = true := decide_eq_true (by omega)
    have hfuel := @sink_fuel _ Earlier bank m k m _ maxBanks (Nat.le_add_left m k) (by omega)
    obtain ⟨-, hother, -⟩ := @sink_spec _ m m k Earlier _ bank maxBanks (by omega) le_rfl
    rw [RestsInside] at hrests
    rw [hfuel] at hrests
    rw [heapify]
    by_cases hin : 2 * (sink Earlier bank m k maxBanks).2 + 1 < maxBanks
    · have hfirst : 2 * (sink Earlier bank m k maxBanks).2 + 1 < m ∨
          2 * (sink Earlier bank m k maxBanks).2 + 1 < maxBanks ∧
            Earlier ((sink Earlier bank m k maxBanks).1 (2 * (sink Earlier bank m k maxBanks).2 + 1))
              ((sink Earlier bank m k maxBanks).1 (sink Earlier bank m k maxBanks).2) := by
        by_cases hchild : 2 * (sink Earlier bank m k maxBanks).2 + 1 < m
        · exact .inl hchild
        · refine .inr ⟨hin, ?_⟩
          rw [Earlier, hother _ (.inr (not_lt.mp hchild)), hzero _ (not_lt.mp hchild)]
          exact Nat.zero_le _
      rw [siftDown_rests h hm (fun _ => hgo) (by omega) (by omega) hfirst, Option.bind_some]
      refine ih (h.sink (by omega) _) (by omega) (fun i hi => ?_) fun hrest => hrests ⟨hfirst, hrest⟩
      rw [hother i (.inr hi)]
      exact hzero i hi
    · rw [siftDown_escapes h hm (fun _ => hgo) (by omega) (by omega) (not_lt.mp hin), Option.bind_none]

/-- The second phase puts the latest banks behind. -/
theorem sortDown_extract (h : Bounded bank) (hk : k < maxBanks) :
    sortDown k bank = some (extract Earlier bank k) := by
  induction k generalizing bank with
  | zero => rfl
  | succ k ih =>
    have hfuel := @sink_fuel _ Earlier (swap bank 0 (k + 1)) (k + 1) 0 (k + 1) _ maxBanks (by omega)
      (by omega)
    rw [sortDown, extract, siftDown_sink (h.swap _ _) (by omega) (by omega), Option.bind_some,
      ih ((h.swap _ _).sink (by omega) _) (by omega), hfuel]

/-- Building the heap keeps the entries words. -/
theorem Bounded.build (h : Bounded bank) (hk : k ≤ m) : Bounded (HeapOrder.build Earlier bank m k) := by
  induction k generalizing bank with
  | zero => exact h
  | succ k ih => exact ih (h.sink (by omega) m) (by omega)

/-- The banks in use come out sorted, when each one comes to rest inside while the heap is built. -/
theorem sortBanks_sorted (h : Bounded bank) (hm : m ≤ maxBanks) (hrests : RestsInside bank m (m / 2)) :
    ∃ bank', sortBanks m bank = some bank' ∧
      ((List.range m).map bank').Perm ((List.range m).map bank) ∧
      ((List.range m).map bank').Pairwise Earlier := by
  have hsort : sortBanks m bank =
      some (extract Earlier (HeapOrder.build Earlier bank m (m / 2)) (m - 1)) := by
    rw [sortBanks, heapify_rests h hm (by omega) hrests, Option.bind_some,
      sortDown_extract (h.build (by omega)) (by have : maxBanks = 8 := rfl; omega)]
  rcases Nat.eq_zero_or_pos m with rfl | hpos
  · exact ⟨_, hsort, List.Perm.refl _, .nil⟩
  · obtain ⟨hperm, horder⟩ := heapSort_sorted earlier_total (fun i _ => Set.mem_univ (bank i)) hpos
    refine ⟨_, hsort, hperm, ?_⟩
    rw [List.pairwise_map]
    exact List.pairwise_lt_range.imp_of_mem fun {a b} _ hb hab => horder a b hab (List.mem_range.mp hb)

/-- The sort has no result otherwise, with entries of page zero behind the banks. -/
theorem sortBanks_escapes (h : Bounded bank) (hm : m ≤ maxBanks)
    (hzero : ∀ i, m ≤ i → bankPfnStart (bank i) = 0) (hrests : ¬RestsInside bank m (m / 2)) :
    sortBanks m bank = none := by
  rw [sortBanks, heapify_escapes h hm (by omega) hzero hrests, Option.bind_none]

end BiscuitOS.MeminfoSort
