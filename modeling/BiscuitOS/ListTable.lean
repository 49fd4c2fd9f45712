import Mathlib

/-!
# Tables of lists

A family of lists over which elements are distributed, each element on at
most one list and at most once. Unlinking an element and linking a new one
keep this; members and lengths change by that element only.
-/

namespace BiscuitOS.ListTable

variable {κ α : Type*} [DecidableEq κ] [DecidableEq α]

/-- The elements on some list. -/
def members (f : κ → List α) : Set α := {x | ∃ k, x ∈ f k}

/-- Take an element off the list it is on. -/
def unlink (f : κ → List α) (x : α) : κ → List α := fun k => (f k).erase x

/-- Total length of some of the lists. -/
def total (s : Finset κ) (f : κ → List α) : ℤ := ∑ k ∈ s, ((f k).length : ℤ)

/-- No element is linked twice. -/
structure Separate (f : κ → List α) : Prop where
  nodup : ∀ k, (f k).Nodup
  unique : ∀ x j k, x ∈ f j → x ∈ f k → j = k

variable {f : κ → List α} {x y : α} {j k : κ} {l : List α} {s : Finset κ}

omit [DecidableEq κ] [DecidableEq α] in
theorem mem_members : x ∈ members f ↔ ∃ k, x ∈ f k := by
  simp only [members, Set.mem_ofPred_eq]

omit [DecidableEq κ] in
/-- What is linked after unlinking an element. -/
theorem Separate.mem_unlink (h : Separate f) : y ∈ unlink f x k ↔ y ≠ x ∧ y ∈ f k := by
  rw [ListTable.unlink, (h.nodup k).mem_erase_iff]

/-- Dropping the first element of a list unlinks it. -/
theorem Separate.unlink_head (h : Separate f) (hk : f k = x :: l) :
    Function.update f k l = ListTable.unlink f x := by
  have hx : x ∈ f k := hk ▸ List.mem_cons_self
  funext j
  rw [ListTable.unlink, Function.update_apply]
  split
  · rename_i hj
    rw [hj, hk, List.erase_cons_head]
  · rename_i hj
    rw [List.erase_of_not_mem fun hm => hj (h.unique x j k hm hx)]

omit [DecidableEq κ] in
/-- Unlinking keeps the lists separate. -/
theorem Separate.unlink (h : Separate f) (x : α) : Separate (unlink f x) where
  nodup k := (h.nodup k).erase x
  unique y j k hj hk := h.unique y j k (h.mem_unlink.mp hj).2 (h.mem_unlink.mp hk).2

omit [DecidableEq κ] in
/-- The members after unlinking an element. -/
theorem Separate.members_unlink (h : Separate f) (x : α) :
    members (ListTable.unlink f x) = members f \ {x} := by
  ext y
  simp only [mem_members, h.mem_unlink, Set.mem_sdiff, Set.mem_singleton_iff]
  constructor
  · rintro ⟨k, hne, hk⟩
    exact ⟨⟨k, hk⟩, hne⟩
  · rintro ⟨⟨k, hk⟩, hne⟩
    exact ⟨k, hne, hk⟩

omit [DecidableEq α] in
/-- What is linked after putting a new element on one list. -/
theorem mem_link (hl : l.Perm (x :: f k)) :
    y ∈ Function.update f k l j ↔ (y = x ∧ j = k) ∨ y ∈ f j := by
  rw [Function.update_apply]
  by_cases hj : j = k
  · rw [if_pos hj, hl.mem_iff, List.mem_cons, hj]
    simp only [and_true]
  · rw [if_neg hj]
    simp only [hj, and_false, false_or]

omit [DecidableEq α] in
/-- Linking a new element keeps the lists separate. -/
theorem Separate.link (h : Separate f) (hx : x ∉ members f) (hl : l.Perm (x :: f k)) :
    Separate (Function.update f k l) where
  nodup j := by
    rw [Function.update_apply]
    split
    · exact hl.nodup_iff.mpr (List.nodup_cons.mpr ⟨fun hm => hx (mem_members.mpr ⟨k, hm⟩), h.nodup k⟩)
    · exact h.nodup j
  unique y i j hi hj := by
    have hnew : ∀ {m}, y = x → y ∉ f m := fun he hm => hx (mem_members.mpr ⟨_, he ▸ hm⟩)
    rcases (mem_link hl).mp hi with ⟨he, hik⟩ | hi
    · rcases (mem_link hl).mp hj with ⟨-, hjk⟩ | hj
      · rw [hik, hjk]
      · exact absurd hj (hnew he)
    · rcases (mem_link hl).mp hj with ⟨he, -⟩ | hj
      · exact absurd hi (hnew he)
      · exact h.unique y i j hi hj

omit [DecidableEq α] in
/-- The members after linking an element. -/
theorem members_link (hl : l.Perm (x :: f k)) :
    members (Function.update f k l) = insert x (members f) := by
  ext y
  simp only [mem_members, mem_link hl, Set.mem_insert_iff, exists_or, exists_and_left, exists_eq,
    and_true]

/-- An element that moves to another list stays linked once, and the members stay the same. -/
theorem Separate.move (h : Separate f) (hx : x ∈ f j) (hne : k ≠ j) (hl : l.Perm (x :: f k)) :
    Separate (Function.update (ListTable.unlink f x) k l) ∧
      members (Function.update (ListTable.unlink f x) k l) = members f := by
  have hk : ListTable.unlink f x k = f k :=
    List.erase_of_not_mem fun hm => hne (h.unique x k j hm hx)
  have hout : x ∉ members (ListTable.unlink f x) := by
    rw [h.members_unlink]
    exact fun hm => hm.2 rfl
  rw [← hk] at hl
  refine ⟨(h.unlink x).link hout hl, ?_⟩
  rw [members_link hl, h.members_unlink, Set.insert_sdiff_singleton,
    Set.insert_eq_of_mem (mem_members.mpr ⟨j, hx⟩)]

/-- The total length after unlinking an element. -/
theorem Separate.total_unlink (h : Separate f) (hx : x ∈ f k) :
    total s (ListTable.unlink f x) = total s f - if k ∈ s then 1 else 0 := by
  have hlen : ∀ j ∈ s, (((ListTable.unlink f x) j).length : ℤ) =
      ((f j).length : ℤ) + if j = k then -1 else 0 := fun j _ => by
    rw [ListTable.unlink]
    by_cases hj : j = k
    · have hpos := List.length_pos_of_mem hx
      rw [hj, List.length_erase_of_mem hx, if_pos rfl]
      omega
    · rw [List.erase_of_not_mem (fun hm => hj (h.unique x j k hm hx)), if_neg hj, add_zero]
  rw [total, Finset.sum_congr rfl hlen, Finset.sum_add_distrib, Finset.sum_ite_eq', total]
  split <;> ring

omit [DecidableEq α] in
/-- The total length after linking an element. -/
theorem total_link (hl : l.Perm (x :: f k)) :
    total s (Function.update f k l) = total s f + if k ∈ s then 1 else 0 := by
  have hlen : ∀ j ∈ s, (((Function.update f k l) j).length : ℤ) =
      ((f j).length : ℤ) + if j = k then 1 else 0 := fun j _ => by
    rw [Function.update_apply]
    by_cases hj : j = k
    · rw [if_pos hj, if_pos hj, hl.length_eq, hj, List.length_cons, Nat.cast_succ]
    · rw [if_neg hj, if_neg hj, add_zero]
  rw [total, Finset.sum_congr rfl hlen, Finset.sum_add_distrib, Finset.sum_ite_eq', total]

end BiscuitOS.ListTable
