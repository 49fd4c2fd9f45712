import Mathlib

/-!
# Tilings by signed block sizes

A region is cut into consecutive blocks, recorded as the list of their sizes
in bytes: positive for a free block, negative for one that is held. The
lemmas give the position of each block and say that held blocks start at
different places and never overlap.
-/

namespace BiscuitOS.BlockTiling

/-- Number of bytes covered by the blocks. -/
def extent (l : List ℤ) : ℕ := (l.map Int.natAbs).sum

/-- Number of bytes in free blocks. -/
def freeSum (l : List ℤ) : ℤ := (l.map fun x : ℤ => max x 0).sum

/-- Two neighbours that are not both free. -/
def NotBothFree (x y : ℤ) : Prop := ¬ (0 < x ∧ 0 < y)

/-- The blocks with their first bytes, the first block starting at `s`. -/
def blocks : ℕ → List ℤ → List (ℕ × ℤ)
  | _, [] => []
  | s, x :: l => (s, x) :: blocks (s + x.natAbs) l

/-- The first bytes of the held blocks. -/
def heldStarts : ℕ → List ℤ → List ℕ
  | _, [] => []
  | s, x :: l => if x < 0 then s :: heldStarts (s + x.natAbs) l else heldStarts (s + x.natAbs) l

/-- A byte lies in a free block, the first block starting at `s`. -/
def FreeAt : ℕ → List ℤ → ℕ → Prop
  | _, [], _ => False
  | s, x :: l, b => 0 < x ∧ s ≤ b ∧ b < s + x.natAbs ∨ FreeAt (s + x.natAbs) l b

/-- Extent of no blocks. -/
@[simp] theorem extent_nil : extent [] = 0 := rfl

/-- Extent with one more block. -/
@[simp] theorem extent_cons (x : ℤ) (l : List ℤ) : extent (x :: l) = x.natAbs + extent l := by
  rw [extent, List.map_cons, List.sum_cons, extent]

/-- Extent of two tilings in a row. -/
@[simp] theorem extent_append (l k : List ℤ) : extent (l ++ k) = extent l + extent k := by
  rw [extent, List.map_append, List.sum_append, extent, extent]

/-- Free bytes of no blocks. -/
@[simp] theorem freeSum_nil : freeSum [] = 0 := rfl

/-- Free bytes with one more block. -/
@[simp] theorem freeSum_cons (x : ℤ) (l : List ℤ) : freeSum (x :: l) = max x 0 + freeSum l := by
  rw [freeSum, List.map_cons, List.sum_cons, freeSum]

/-- Free bytes of two tilings in a row. -/
@[simp] theorem freeSum_append (l k : List ℤ) : freeSum (l ++ k) = freeSum l + freeSum k := by
  rw [freeSum, List.map_append, List.sum_append, freeSum, freeSum]

/-- The free bytes are some of those covered. -/
theorem freeSum_bounds (l : List ℤ) : 0 ≤ freeSum l ∧ freeSum l ≤ extent l := by
  induction l with
  | nil => exact ⟨le_rfl, le_rfl⟩
  | cons x l ih =>
    rw [freeSum_cons, extent_cons]
    omega

/-- Positions in two tilings in a row. -/
theorem blocks_append (s : ℕ) (l k : List ℤ) :
    blocks s (l ++ k) = blocks s l ++ blocks (s + extent l) k := by
  induction l generalizing s with
  | nil => rfl
  | cons x l ih =>
    rw [List.cons_append, blocks, ih, blocks, List.cons_append, extent_cons, Nat.add_assoc]

/-- Held blocks of two tilings in a row. -/
theorem heldStarts_append (s : ℕ) (l k : List ℤ) :
    heldStarts s (l ++ k) = heldStarts s l ++ heldStarts (s + extent l) k := by
  induction l generalizing s with
  | nil => rfl
  | cons x l ih =>
    rw [List.cons_append, heldStarts, heldStarts, ih, extent_cons, Nat.add_assoc]
    split <;> rfl

/-- A free block adds no held one. -/
theorem heldStarts_cons_free (s : ℕ) {x : ℤ} (l : List ℤ) (h : 0 ≤ x) :
    heldStarts s (x :: l) = heldStarts (s + x.natAbs) l := by
  rw [heldStarts, if_neg (by omega)]

/-- A held block starts where it stands. -/
theorem heldStarts_cons_held (s : ℕ) {x : ℤ} (l : List ℤ) (h : x < 0) :
    heldStarts s (x :: l) = s :: heldStarts (s + x.natAbs) l := by
  rw [heldStarts, if_pos h]

/-- Held starts are the starts of held blocks. -/
theorem mem_heldStarts {s o : ℕ} {l : List ℤ} :
    o ∈ heldStarts s l ↔ ∃ x, (o, x) ∈ blocks s l ∧ x < 0 := by
  induction l generalizing s with
  | nil => simp only [heldStarts, blocks, List.not_mem_nil, false_and, exists_false]
  | cons y l ih =>
    simp only [blocks, List.mem_cons, Prod.mk.injEq, or_and_right, exists_or, ← ih]
    by_cases hy : y < 0
    · simp only [heldStarts, if_pos hy, List.mem_cons]
      refine or_congr_left ⟨fun h => ⟨y, ⟨h, rfl⟩, hy⟩, fun ⟨_, h, _⟩ => h.1⟩
    · simp only [heldStarts, if_neg hy]
      refine ⟨Or.inr, fun h => h.elim (fun ⟨x, hx, hneg⟩ => absurd (hx.2 ▸ hneg) hy) fun h => h⟩

/-- No block starts before the first one. -/
theorem le_of_mem_blocks {s o : ℕ} {x : ℤ} {l : List ℤ} (h : (o, x) ∈ blocks s l) : s ≤ o := by
  induction l generalizing s with
  | nil => cases h
  | cons y l ih =>
    rcases List.mem_cons.mp h with h | h
    · exact (Prod.mk.inj h).1.ge
    · exact (Nat.le_add_right _ _).trans (ih h)

/-- A block that starts after another one starts after its end. -/
theorem blocks_apart {s o p : ℕ} {x y : ℤ} {l : List ℤ} (hx : (o, x) ∈ blocks s l)
    (hy : (p, y) ∈ blocks s l) (h : o < p) : o + x.natAbs ≤ p := by
  induction l generalizing s with
  | nil => cases hx
  | cons z l ih =>
    rcases List.mem_cons.mp hx with h1 | h1 <;> rcases List.mem_cons.mp hy with h2 | h2
    · have ho := (Prod.mk.inj h1).1
      have hp := (Prod.mk.inj h2).1
      omega
    · obtain ⟨rfl, rfl⟩ := Prod.mk.inj h1
      exact le_of_mem_blocks h2
    · obtain ⟨rfl, rfl⟩ := Prod.mk.inj h2
      have := le_of_mem_blocks h1
      omega
    · exact ih h1 h2

/-- Held blocks start at different places. -/
theorem heldStarts_nodup {s : ℕ} {l : List ℤ} (h : ∀ x ∈ l, x ≠ 0) : (heldStarts s l).Nodup := by
  induction l generalizing s with
  | nil => exact List.nodup_nil
  | cons x l ih =>
    have hl := ih (s := s + x.natAbs) fun y hy => h y (List.mem_cons_of_mem _ hy)
    have hx := h x List.mem_cons_self
    rw [heldStarts]
    split
    · refine List.nodup_cons.mpr ⟨fun hs => ?_, hl⟩
      obtain ⟨y, hy, -⟩ := mem_heldStarts.mp hs
      have := le_of_mem_blocks hy
      omega
    · exact hl

/-- The position of a block is the extent of the blocks before it. -/
theorem split_of_mem_blocks {s o : ℕ} {x : ℤ} {l : List ℤ} (h : (o, x) ∈ blocks s l) :
    ∃ A B, l = A ++ x :: B ∧ o = s + extent A := by
  induction l generalizing s with
  | nil => cases h
  | cons y l ih =>
    rcases List.mem_cons.mp h with h | h
    · obtain ⟨rfl, rfl⟩ := Prod.mk.inj h
      exact ⟨[], l, rfl, rfl⟩
    · obtain ⟨A, B, rfl, ho⟩ := ih h
      refine ⟨y :: A, B, rfl, ?_⟩
      rw [ho, extent_cons, Nat.add_assoc]

/-- Free blocks are free in their whole extent. -/
theorem freeSum_of_free {l : List ℤ} (h : ∀ x ∈ l, 0 < x) : freeSum l = extent l := by
  induction l with
  | nil => rfl
  | cons x l ih =>
    have hx := h x List.mem_cons_self
    rw [freeSum_cons, extent_cons, ih fun y hy => h y (List.mem_cons_of_mem _ hy)]
    omega

/-- Free blocks hold no area. -/
theorem heldStarts_of_free (s : ℕ) {l : List ℤ} (h : ∀ x ∈ l, 0 < x) : heldStarts s l = [] := by
  induction l generalizing s with
  | nil => rfl
  | cons x l ih =>
    rw [heldStarts_cons_free _ _ (h x List.mem_cons_self).le]
    exact ih _ fun y hy => h y (List.mem_cons_of_mem _ hy)

/-- Blocks of which none is held are free. -/
theorem free_of_heldStarts {s : ℕ} {l : List ℤ} (hnonzero : ∀ x ∈ l, x ≠ 0)
    (h : heldStarts s l = []) : ∀ x ∈ l, 0 < x := by
  induction l generalizing s with
  | nil =>
    intro x hx
    cases hx
  | cons y l ih =>
    have hy := hnonzero y List.mem_cons_self
    by_cases hneg : y < 0
    · rw [heldStarts_cons_held s l hneg] at h
      exact absurd h (List.cons_ne_nil _ _)
    · have hpos : 0 < y := by omega
      rw [heldStarts_cons_free s l hpos.le] at h
      intro x hx
      rcases List.mem_cons.mp hx with hxy | hxl
      · rw [hxy]
        exact hpos
      · exact ih (fun z hz => hnonzero z (List.mem_cons_of_mem _ hz)) h x hxl

/-- Positions are only changed where blocks are replaced by others of the same extent. -/
theorem mem_blocks_replace {s o : ℕ} {y : ℤ} {A M N B : List ℤ} (he : extent N = extent M)
    (h : (o, y) ∈ blocks s (A ++ (M ++ B))) :
    (o, y) ∈ blocks s (A ++ (N ++ B)) ∨ (o, y) ∈ blocks (s + extent A) M := by
  simp only [blocks_append, List.mem_append, he] at h ⊢
  rcases h with h | h | h
  · exact Or.inl (Or.inl h)
  · exact Or.inr h
  · exact Or.inl (Or.inr (Or.inr h))

/-- Neighbours around a free block. -/
theorem isChain_free_iff {x : ℤ} (hx : 0 < x) (A B : List ℤ) :
    (A ++ x :: B).IsChain NotBothFree ↔ A.IsChain NotBothFree ∧ B.IsChain NotBothFree ∧
      (∀ y ∈ A.getLast?, y ≤ 0) ∧ ∀ y ∈ B.head?, y ≤ 0 := by
  simp only [List.isChain_append, List.isChain_cons, List.head?_cons, Option.mem_some_iff,
    forall_eq', NotBothFree, hx, and_true, true_and, not_lt]
  tauto

/-- Neighbours around a held block. -/
theorem isChain_held_iff {x : ℤ} (hx : x ≤ 0) (A B : List ℤ) :
    (A ++ x :: B).IsChain NotBothFree ↔ A.IsChain NotBothFree ∧ B.IsChain NotBothFree := by
  have hn : ¬ 0 < x := by omega
  simp only [List.isChain_append, List.isChain_cons, List.head?_cons, Option.mem_some_iff,
    forall_eq', NotBothFree, hn, and_false, false_and, not_false_eq_true, implies_true, true_and,
    and_true]

/-- Free bytes of two tilings in a row. -/
theorem freeAt_append (s b : ℕ) (l k : List ℤ) :
    FreeAt s (l ++ k) b ↔ FreeAt s l b ∨ FreeAt (s + extent l) k b := by
  induction l generalizing s with
  | nil => simp only [List.nil_append, FreeAt, extent_nil, Nat.add_zero, false_or]
  | cons x l ih =>
    rw [List.cons_append, FreeAt, ih, FreeAt, extent_cons, Nat.add_assoc, or_assoc]

/-- The free bytes depend on those of a part that is replaced by one of the same extent. -/
theorem freeAt_replace {A M N B : List ℤ} (he : extent M = extent N)
    (h : ∀ s b, FreeAt s M b ↔ FreeAt s N b) (s b : ℕ) :
    FreeAt s (A ++ (M ++ B)) b ↔ FreeAt s (A ++ (N ++ B)) b := by
  simp only [freeAt_append, h, he]

/-- Two free blocks in a row have the bytes of one. -/
theorem freeAt_pair {x y : ℤ} (hx : 0 ≤ x) (hy : 0 ≤ y) (s b : ℕ) :
    FreeAt s [x, y] b ↔ FreeAt s [x + y] b := by
  simp only [FreeAt, or_false]
  omega

/-- All bytes of free blocks are free. -/
theorem freeAt_of_free {l : List ℤ} (h : ∀ x ∈ l, 0 < x) (s b : ℕ) :
    FreeAt s l b ↔ s ≤ b ∧ b < s + extent l := by
  induction l generalizing s with
  | nil =>
    rw [extent_nil]
    exact ⟨False.elim, fun hb => absurd hb.1 (by omega)⟩
  | cons x l ih =>
    have hx := h x List.mem_cons_self
    rw [FreeAt, ih fun y hy => h y (List.mem_cons_of_mem _ hy), extent_cons]
    omega

/-- Dropping the one occurrence of a member. -/
theorem filter_ne_middle {α : Type*} [DecidableEq α] {A B : List α} {o : α}
    (h : (A ++ o :: B).Nodup) : (A ++ o :: B).filter (fun x => x ≠ o) = A ++ B := by
  have hn := List.nodup_middle.mp h
  have hmem := (List.nodup_cons.mp hn).1
  rw [List.mem_append, not_or] at hmem
  have hkeep : ∀ l : List α, o ∉ l → l.filter (fun x => x ≠ o) = l := fun l hl =>
    List.filter_eq_self.mpr fun x hx => decide_eq_true fun he => hl (he ▸ hx)
  rw [List.filter_append, List.filter_cons_of_neg (by simp only [ne_eq, not_true_eq_false,
    decide_false, Bool.false_eq_true, not_false_eq_true]), hkeep A hmem.1, hkeep B hmem.2]

end BiscuitOS.BlockTiling
