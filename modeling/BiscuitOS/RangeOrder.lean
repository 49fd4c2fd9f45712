import Mathlib

/-!
# Clear ranges in order

Items with a lower and an upper end, such that each range is not empty and
ends before the next one starts.
-/

namespace BiscuitOS.RangeOrder

variable {α β : Type*} [LinearOrder β] {lo hi : α → β} {l xs ys : List α} {a b x : α}

/-- The ranges of a list are not empty, disjoint and in order. -/
structure Apart (lo hi : α → β) (l : List α) : Prop where
  /-- No range is empty. -/
  nonempty : ∀ a ∈ l, lo a < hi a
  /-- Each range ends before the next one. -/
  sorted : l.Pairwise fun a b => hi a ≤ lo b

/-- Two ranges do not overlap. -/
def Clear (lo hi : α → β) (a b : α) : Prop := hi a ≤ lo b ∨ hi b ≤ lo a

/-- The ranges before one of them. -/
theorem Apart.before (h : Apart lo hi (xs ++ a :: ys)) : ∀ x ∈ xs, hi x ≤ lo a := fun x hx =>
  (List.pairwise_append.mp h.sorted).2.2 x hx a List.mem_cons_self

/-- The ranges after one of them. -/
theorem Apart.after (h : Apart lo hi (xs ++ a :: ys)) : ∀ y ∈ ys, hi a ≤ lo y :=
  (List.pairwise_cons.mp (List.pairwise_append.mp h.sorted).2.1).1

/-- A range within the list. -/
theorem Apart.range (h : Apart lo hi (xs ++ a :: ys)) : lo a < hi a :=
  h.nonempty a (List.mem_append_right _ List.mem_cons_self)

/-- The ranges before one of them start before it. -/
theorem Apart.lo_before (h : Apart lo hi (xs ++ a :: ys)) : ∀ x ∈ xs, lo x < lo a := fun x hx =>
  (h.nonempty x (List.mem_append_left _ hx)).trans_le (h.before x hx)

/-- The ranges after one of them end after it. -/
theorem Apart.hi_after (h : Apart lo hi (xs ++ a :: ys)) : ∀ y ∈ ys, hi a < hi y := fun y hy =>
  (h.after y hy).trans_lt
    (h.nonempty y (List.mem_append_right _ (List.mem_cons_of_mem _ hy)))

/-- Two different ranges of the list do not overlap. -/
theorem Apart.disjoint (h : Apart lo hi l) (ha : a ∈ l) (hb : b ∈ l) (hne : a ≠ b) :
    Clear lo hi a b := by
  obtain ⟨xs, ys, rfl⟩ := List.append_of_mem ha
  rcases List.mem_append.mp hb with hm | hm
  · exact Or.inr (h.before b hm)
  · rcases List.mem_cons.mp hm with rfl | hm
    · exact absurd rfl hne
    · exact Or.inl (h.after b hm)

/-- Ranges of a list that start at the same end are the same. -/
theorem Apart.lo_inj (h : Apart lo hi l) (ha : a ∈ l) (hb : b ∈ l) (he : lo a = lo b) : a = b := by
  by_contra hne
  rcases h.disjoint ha hb hne with hc | hc
  · exact absurd (h.nonempty a ha) (by rw [he]; exact not_lt.mpr hc)
  · exact absurd (h.nonempty b hb) (by rw [← he]; exact not_lt.mpr hc)

/-- A range between those before and after it. -/
theorem Apart.insert (h : Apart lo hi (xs ++ ys)) (hx : lo x < hi x)
    (hbefore : ∀ a ∈ xs, hi a ≤ lo x) (hafter : ∀ b ∈ ys, hi x ≤ lo b) :
    Apart lo hi (xs ++ x :: ys) where
  nonempty a ha := by
    rcases List.mem_append.mp ha with hm | hm
    · exact h.nonempty a (List.mem_append_left _ hm)
    · rcases List.mem_cons.mp hm with rfl | hm
      · exact hx
      · exact h.nonempty a (List.mem_append_right _ hm)
  sorted := by
    have hs := List.pairwise_append.mp h.sorted
    refine List.pairwise_append.mpr ⟨hs.1, List.pairwise_cons.mpr ⟨hafter, hs.2.1⟩, ?_⟩
    intro a ha b hb
    rcases List.mem_cons.mp hb with rfl | hm
    · exact hbefore a ha
    · exact hs.2.2 a ha b hm

/-- Fewer ranges. -/
theorem Apart.sublist (h : Apart lo hi l) (hs : xs.Sublist l) : Apart lo hi xs :=
  ⟨fun a ha => h.nonempty a (hs.subset ha), h.sorted.sublist hs⟩

/-- Only the ends of the ranges matter. -/
theorem Apart.congr {lo' hi' : α → β} (h : Apart lo hi l) (hlo : ∀ a ∈ l, lo' a = lo a)
    (hhi : ∀ a ∈ l, hi' a = hi a) : Apart lo' hi' l where
  nonempty a ha := by
    rw [hlo a ha, hhi a ha]
    exact h.nonempty a ha
  sorted := h.sorted.imp_of_mem fun ha hb hab => by
    rw [hhi _ ha, hlo _ hb]
    exact hab

end BiscuitOS.RangeOrder
