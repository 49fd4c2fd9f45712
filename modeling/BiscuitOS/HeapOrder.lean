import Mathlib

/-!
# Heaps in an array

An array is a function of the place. An element sinks below its greater child
as long as it is less. Building a heap and taking the greatest element out
again and again sorts the array.
-/

namespace BiscuitOS.HeapOrder

variable {α : Type*}

/-- A total preorder on some values. -/
structure TotalPreorderOn (le : α → α → Prop) (S : Set α) : Prop where
  /-- Two values compare. -/
  total : ∀ a ∈ S, ∀ b ∈ S, le a b ∨ le b a
  /-- Comparisons chain. -/
  trans : ∀ a ∈ S, ∀ b ∈ S, ∀ c ∈ S, le a b → le b c → le a c

/-- Exchange two places. -/
def swap (f : ℕ → α) (r c : ℕ) : ℕ → α := fun i => f (Equiv.swap r c i)

/-- The place after another one as its child. -/
def IsChild (c p : ℕ) : Prop := c = 2 * p + 1 ∨ c = 2 * p + 2

section Definitions

variable (le : α → α → Prop) [DecidableRel le]

/-- The child that is not less, among the first `m` places. -/
def greaterChild (f : ℕ → α) (m r : ℕ) : ℕ :=
  if 2 * r + 2 < m ∧ ¬ le (f (2 * r + 2)) (f (2 * r + 1)) then 2 * r + 2 else 2 * r + 1

/-- Let an element sink among the first `m` places, with fuel: the array, and where it rests. -/
def sink (f : ℕ → α) (m r : ℕ) : ℕ → (ℕ → α) × ℕ
  | 0 => (f, r)
  | fuel + 1 =>
    if 2 * r + 1 < m then
      if le (f (greaterChild le f m r)) (f r) then (f, r)
      else sink (swap f r (greaterChild le f m r)) m (greaterChild le f m r) fuel
    else (f, r)

/-- Let the elements at the first `k` places sink, the last one first. -/
def build (f : ℕ → α) (m : ℕ) : ℕ → (ℕ → α)
  | 0 => f
  | k + 1 => build (sink le f m k m).1 m k

/-- While the heap is built, no element comes to rest at a place without children. -/
def StaysInside (f : ℕ → α) (m : ℕ) : ℕ → Prop
  | 0 => True
  | k + 1 => 2 * (sink le f m k m).2 + 1 < m ∧ StaysInside (sink le f m k m).1 m k

/-- Put the greatest elements behind, from place `k` down. -/
def extract (f : ℕ → α) : ℕ → (ℕ → α)
  | 0 => f
  | k + 1 => extract (sink le (swap f 0 (k + 1)) (k + 1) 0 (k + 1)).1 k

end Definitions

instance (le : α → α → Prop) [DecidableRel le] (f : ℕ → α) (m : ℕ) :
    ∀ k, Decidable (StaysInside le f m k)
  | 0 => isTrue trivial
  | k + 1 =>
    have : Decidable (StaysInside le (sink le f m k m).1 m k) :=
      instDecidableStaysInside le (sink le f m k m).1 m k
    inferInstanceAs (Decidable (_ ∧ StaysInside le (sink le f m k m).1 m k))

/-- From a place on, no element is less than its children. -/
def HeapFrom (le : α → α → Prop) (f : ℕ → α) (m k : ℕ) : Prop :=
  ∀ j c, k ≤ j → IsChild c j → c < m → le (f c) (f j)

/-- From a place on, the elements are in order apart from one that sinks. -/
structure Sinking (le : α → α → Prop) (f : ℕ → α) (m k r : ℕ) : Prop where
  /-- All others are in order with their children. -/
  except : ∀ j c, k ≤ j → j ≠ r → IsChild c j → c < m → le (f c) (f j)
  /-- The children of the one that sinks are in order with its parent. -/
  grand : ∀ p c, k ≤ p → IsChild r p → IsChild c r → c < m → le (f c) (f p)

variable {le : α → α → Prop} {S : Set α} {f : ℕ → α} {m n k r c i fuel : ℕ}

/-- The first place after an exchange. -/
theorem swap_left : swap f r c r = f c := congrArg f (Equiv.swap_apply_left r c)

/-- The second place after an exchange. -/
theorem swap_right : swap f r c c = f r := congrArg f (Equiv.swap_apply_right r c)

/-- Other places after an exchange. -/
theorem swap_other (hr : i ≠ r) (hc : i ≠ c) : swap f r c i = f i :=
  congrArg f (Equiv.swap_apply_of_ne_of_ne hr hc)

/-- An exchange inside a part keeps the places of the part inside. -/
theorem swap_place (hr : r < n) (hc : c < n) (hi : i < n) : Equiv.swap r c i < n := by
  by_cases h : i = r
  · rwa [h, Equiv.swap_apply_left]
  · by_cases h' : i = c
    · rwa [h', Equiv.swap_apply_right]
    · rwa [Equiv.swap_apply_of_ne_of_ne h h']

/-- An exchange permutes the elements. -/
theorem swap_perm (hr : r < n) (hc : c < n) :
    ((List.range n).map (swap f r c)).Perm ((List.range n).map f) := by
  have hplaces : ((List.range n).map (Equiv.swap r c)).Perm (List.range n) := by
    refine (List.perm_ext_iff_of_nodup (List.nodup_range.map (Equiv.swap r c).injective)
      List.nodup_range).mpr fun i => ?_
    rw [List.mem_map, List.mem_range]
    constructor
    · rintro ⟨j, hj, rfl⟩
      exact swap_place hr hc (List.mem_range.mp hj)
    · intro hi
      exact ⟨Equiv.swap r c i, List.mem_range.mpr (swap_place hr hc hi), Equiv.swap_apply_self r c i⟩
  have hmap : (List.range n).map (swap f r c) = ((List.range n).map (Equiv.swap r c)).map f := by
    rw [List.map_map]
    rfl
  rw [hmap]
  exact hplaces.map f

/-- The first element of a heap is not less than any other. -/
theorem HeapFrom.le_first (hheap : HeapFrom le f m 0) (h : TotalPreorderOn le S)
    (hf : ∀ i < m, f i ∈ S) (hi : i < m) : le (f i) (f 0) := by
  induction i using Nat.strong_induction_on with
  | _ i ih =>
    by_cases hzero : i = 0
    · rw [hzero]
      exact or_self_iff.mp (h.total _ (hf 0 (by omega)) _ (hf 0 (by omega)))
    · have hchild : IsChild i ((i - 1) / 2) := by
        rw [IsChild]
        omega
      have hle := hheap ((i - 1) / 2) i (Nat.zero_le _) hchild hi
      have hup := ih ((i - 1) / 2) (by omega) (by omega)
      exact h.trans _ (hf i hi) _ (hf _ (by omega)) _ (hf 0 (by omega)) hle hup

section

variable (le) (f) [DecidableRel le]

/-- The greater child is a child within the part. -/
theorem greaterChild_spec (hr : 2 * r + 1 < m) :
    IsChild (greaterChild le f m r) r ∧ greaterChild le f m r < m := by
  rw [greaterChild, IsChild]
  split <;> omega

end

variable [DecidableRel le]

/-- No child is greater. -/
theorem le_greaterChild (h : TotalPreorderOn le S) (hf : ∀ i < m, f i ∈ S) (hc : IsChild c r)
    (hcm : c < m) : le (f c) (f (greaterChild le f m r)) := by
  have hrefl : ∀ i < m, le (f i) (f i) := fun i hi => or_self_iff.mp (h.total _ (hf i hi) _ (hf i hi))
  rw [greaterChild]
  rcases hc with rfl | rfl
  · split
    · rename_i hg
      exact (h.total _ (hf _ hcm) _ (hf _ hg.1)).resolve_right hg.2
    · exact hrefl _ hcm
  · split
    · exact hrefl _ hcm
    · rename_i hg
      by_contra hle
      exact hg ⟨hcm, hle⟩

/-- One step of an element that sinks. -/
theorem Sinking.step (hs : Sinking le f m k r) (h : TotalPreorderOn le S) (hf : ∀ i < m, f i ∈ S)
    (hk : k ≤ r) (hr : 2 * r + 1 < m) (hless : ¬ le (f (greaterChild le f m r)) (f r)) :
    Sinking le (swap f r (greaterChild le f m r)) m k (greaterChild le f m r) := by
  have hgreater := fun d hd hdm => le_greaterChild (r := r) (c := d) h hf hd hdm
  obtain ⟨hchild, hcm⟩ := greaterChild_spec le f hr
  generalize greaterChild le f m r = c at *
  have hle : le (f r) (f c) := (h.total _ (hf c hcm) _ (hf r (by omega))).resolve_left hless
  have hrc : r < c := by
    rw [IsChild] at hchild
    omega
  refine ⟨fun j d hj hjc hd hdm => ?_, fun p d hp hcp hd hdm => ?_⟩
  · by_cases hjr : j = r
    · subst hjr
      rw [swap_left]
      by_cases hdc : d = c
      · rw [hdc, swap_right]
        exact hle
      · have hdj : d ≠ j := by
          rw [IsChild] at hd
          omega
        rw [swap_other hdj hdc]
        exact hgreater d hd hdm
    · have hdc : d ≠ c := by
        rw [IsChild] at hd hchild
        omega
      rw [swap_other hjr hjc]
      by_cases hdr : d = r
      · rw [hdr, swap_left]
        exact hs.grand j c hj (hdr ▸ hd) hchild hcm
      · rw [swap_other hdr hdc]
        exact hs.except j d hj hjr hd hdm
  · have hpr : p = r := by
      rw [IsChild] at hcp hchild
      omega
    have hne : d ≠ r ∧ d ≠ c := by
      rw [IsChild] at hd
      omega
    rw [hpr, swap_left, swap_other hne.1 hne.2]
    exact hs.except c d (by omega) (by omega) hd hdm

/-- An element that sinks puts the elements in order. -/
theorem sink_heap (h : TotalPreorderOn le S) (hf : ∀ i < m, f i ∈ S) (hk : k ≤ r)
    (hs : Sinking le f m k r) (hfuel : m ≤ r + fuel) : HeapFrom le (sink le f m r fuel).1 m k := by
  induction fuel generalizing f r with
  | zero =>
    intro j c hj hc hcm
    rw [IsChild] at hc
    exact hs.except j c hj (by omega) hc hcm
  | succ fuel ih =>
    rw [sink]
    by_cases hr : 2 * r + 1 < m
    · obtain ⟨hchild, hcm⟩ := greaterChild_spec le f hr
      have hrc : r < greaterChild le f m r := by
        rw [IsChild] at hchild
        omega
      rw [if_pos hr]
      by_cases hle : le (f (greaterChild le f m r)) (f r)
      · rw [if_pos hle]
        intro j c hj hc hcm'
        by_cases hjr : j = r
        · subst hjr
          have hg := le_greaterChild h hf hc hcm'
          exact h.trans _ (hf c hcm') _ (hf _ hcm) _ (hf j (by omega)) hg hle
        · exact hs.except j c hj hjr hc hcm'
      · rw [if_neg hle]
        refine ih (fun i hi => hf _ (swap_place (by omega) hcm hi)) (by omega)
          (hs.step h hf hk hr hle) (by omega)
    · rw [if_neg hr]
      intro j c hj hc hcm
      rw [IsChild] at hc
      exact hs.except j c hj (by omega) hc hcm

/-- Sinking permutes the elements, leaves the places before and behind alone, and moves elements
within the part. -/
theorem sink_spec (le : α → α → Prop) [DecidableRel le] (f : ℕ → α) (fuel : ℕ) (hr : r < m)
    (hmn : m ≤ n) :
    ((List.range n).map (sink le f m r fuel).1).Perm ((List.range n).map f) ∧
      (∀ i, i < r ∨ m ≤ i → (sink le f m r fuel).1 i = f i) ∧
      ∀ i < m, ∃ j < m, (sink le f m r fuel).1 i = f j := by
  induction fuel generalizing f r with
  | zero => exact ⟨List.Perm.refl _, fun _ _ => rfl, fun i hi => ⟨i, hi, rfl⟩⟩
  | succ fuel ih =>
    rw [sink]
    by_cases hc : 2 * r + 1 < m
    · obtain ⟨hchild, hcm⟩ := greaterChild_spec le f hc
      have hrc : r < greaterChild le f m r := by
        rw [IsChild] at hchild
        omega
      rw [if_pos hc]
      by_cases hle : le (f (greaterChild le f m r)) (f r)
      · rw [if_pos hle]
        exact ⟨List.Perm.refl _, fun _ _ => rfl, fun i hi => ⟨i, hi, rfl⟩⟩
      · rw [if_neg hle]
        obtain ⟨hperm, hother, hmem⟩ := ih (f := swap f r (greaterChild le f m r)) hcm
        refine ⟨hperm.trans (swap_perm (by omega) (by omega)), fun i hi => ?_, fun i hi => ?_⟩
        · rw [hother i (by omega), swap_other (by omega) (by omega)]
        · obtain ⟨j, hj, heq⟩ := hmem i hi
          exact ⟨_, swap_place (by omega) hcm hj, heq⟩
    · rw [if_neg hc]
      exact ⟨List.Perm.refl _, fun _ _ => rfl, fun i hi => ⟨i, hi, rfl⟩⟩

/-- More fuel than places left does not matter. -/
theorem sink_fuel {n : ℕ} (hfuel : m ≤ r + fuel) (hfuel' : m ≤ r + n) :
    sink le f m r fuel = sink le f m r n := by
  induction fuel generalizing f r n with
  | zero =>
    cases n with
    | zero => rfl
    | succ n => rw [sink, sink, if_neg (by omega)]
  | succ fuel ih =>
    cases n with
    | zero => rw [sink, sink, if_neg (by omega)]
    | succ n =>
      rw [sink, sink]
      by_cases hc : 2 * r + 1 < m
      · obtain ⟨hchild, -⟩ := greaterChild_spec le f hc
        have hrc : r < greaterChild le f m r := by
          rw [IsChild] at hchild
          omega
        rw [if_pos hc, if_pos hc, ih (n := n) (by omega) (by omega)]
      · rw [if_neg hc, if_neg hc]

/-- Building a heap. -/
theorem build_heap (h : TotalPreorderOn le S) (hf : ∀ i < m, f i ∈ S) (hk : k ≤ m)
    (hheap : HeapFrom le f m k) :
    HeapFrom le (build le f m k) m 0 ∧
      ((List.range m).map (build le f m k)).Perm ((List.range m).map f) ∧
      ∀ i < m, build le f m k i ∈ S := by
  induction k generalizing f with
  | zero => exact ⟨hheap, List.Perm.refl _, hf⟩
  | succ k ih =>
    obtain ⟨hperm, -, hmem⟩ := sink_spec (n := m) (r := k) le f m
      (by omega) le_rfl
    have hs : Sinking le f m k k :=
      ⟨fun j c hj hne hc hcm => hheap j c (by omega) hc hcm, fun p c hp hkp _ _ => by
        rw [IsChild] at hkp
        omega⟩
    have hsink := sink_heap h hf le_rfl hs (Nat.le_add_left m k)
    obtain ⟨hb, hp, hm⟩ := ih (f := (sink le f m k m).1)
      (fun i hi => by
        obtain ⟨j, hj, heq⟩ := hmem i hi
        rw [heq]
        exact hf j hj) (by omega) hsink
    exact ⟨hb, hp.trans hperm, hm⟩

/-- Putting the greatest elements of a heap behind sorts it, when all places behind are in order and
not less already. -/
theorem extract_sorted (h : TotalPreorderOn le S) (hf : ∀ i < n, f i ∈ S) (hk : k < n)
    (hheap : HeapFrom le f (k + 1) 0) (hbehind : ∀ i ≤ k, ∀ j, k < j → j < n → le (f i) (f j))
    (hsorted : ∀ i j, k < i → i < j → j < n → le (f i) (f j)) :
    ((List.range n).map (extract le f k)).Perm ((List.range n).map f) ∧
      ∀ i j, i < j → j < n → le (extract le f k i) (extract le f k j) := by
  induction k generalizing f with
  | zero =>
    refine ⟨List.Perm.refl _, fun i j hij hj => ?_⟩
    by_cases hi : i = 0
    · rw [hi]
      exact hbehind 0 le_rfl j (by omega) hj
    · exact hsorted i j (by omega) hij hj
  | succ k ih =>
    rw [extract]
    have hswap := swap_perm (f := f) (show 0 < n by omega) hk
    have hfirst : ∀ i ≤ k + 1, le (f i) (f 0) := fun i hi =>
      hheap.le_first h (fun i hi => hf i (by omega)) (by omega)
    have hmem : ∀ i < n, swap f 0 (k + 1) i ∈ S := fun i hi =>
      hf _ (swap_place (by omega) hk hi)
    have hs : Sinking le (swap f 0 (k + 1)) (k + 1) 0 0 := by
      refine ⟨fun j c _ hj hc hcm => ?_, fun p c _ hp _ _ => ?_⟩
      · rw [IsChild] at hc
        rw [swap_other (by omega) (by omega), swap_other hj (by omega)]
        exact hheap j c (Nat.zero_le _) hc (by omega)
      · rw [IsChild] at hp
        omega
    obtain ⟨hperm, hother, hin⟩ := sink_spec (r := 0) le
      (swap f 0 (k + 1)) (k + 1) (Nat.succ_pos k) hk.le
    have hheap' := sink_heap h (fun i hi => hmem i (by omega)) le_rfl hs (Nat.le_add_left _ _)
    generalize (sink le (swap f 0 (k + 1)) (k + 1) 0 (k + 1)).1 = g at *
    have hlast : g (k + 1) = f 0 := by rw [hother (k + 1) (by omega), swap_right]
    have hrest : ∀ j, k + 1 < j → g j = f j := fun j hj => by
      rw [hother j (by omega), swap_other (by omega) (by omega)]
    have hpart : ∀ i ≤ k, ∃ j ≤ k + 1, g i = f j := by
      intro i hi
      obtain ⟨j, hj, heq⟩ := hin i (by omega)
      have hplace : Equiv.swap 0 (k + 1) j < k + 2 := swap_place (by omega) (by omega) (by omega)
      exact ⟨_, by omega, heq⟩
    have hg : ∀ i < n, g i ∈ S := fun i hi => by
      by_cases hik : i ≤ k
      · obtain ⟨j, hj, heq⟩ := hpart i hik
        rw [heq]
        exact hf j (by omega)
      · rw [hother i (by omega)]
        exact hmem i hi
    obtain ⟨hp, hord⟩ := ih (f := g) hg (by omega) hheap'
      (fun i hi j hj hjn => by
        obtain ⟨i', hi', heq⟩ := hpart i hi
        rw [heq]
        by_cases hjk : j = k + 1
        · rw [hjk, hlast]
          exact hfirst i' hi'
        · rw [hrest j (by omega)]
          exact hbehind i' hi' j (by omega) hjn)
      (fun i j hi hij hjn => by
        rw [hrest j (by omega)]
        by_cases hik : i = k + 1
        · rw [hik, hlast]
          exact hbehind 0 (Nat.zero_le _) j (by omega) hjn
        · rw [hrest i (by omega)]
          exact hsorted i j (by omega) hij hjn)
    exact ⟨hp.trans (hperm.trans hswap), hord⟩

/-- Building a heap and putting the greatest elements behind sorts. -/
theorem heapSort_sorted (h : TotalPreorderOn le S) (hf : ∀ i < n, f i ∈ S) (hn : 0 < n) :
    ((List.range n).map (extract le (build le f n (n / 2)) (n - 1))).Perm ((List.range n).map f) ∧
      ∀ i j, i < j → j < n → le (extract le (build le f n (n / 2)) (n - 1) i)
        (extract le (build le f n (n / 2)) (n - 1) j) := by
  obtain ⟨hheap, hperm, hmem⟩ := build_heap (k := n / 2) h hf (Nat.div_le_self n 2)
    fun j c hj hc hcm => by
      rw [IsChild] at hc
      omega
  have hlast : n - 1 + 1 = n := by omega
  obtain ⟨hp, hord⟩ := extract_sorted (k := n - 1) h hmem (by omega) (by rwa [hlast])
    (fun i _ j hj hjn => by omega) fun i j hi hij hjn => by omega
  exact ⟨hp.trans hperm, hord⟩

end BiscuitOS.HeapOrder
