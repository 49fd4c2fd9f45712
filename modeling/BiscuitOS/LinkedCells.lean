import BiscuitOS.ByteMemory

/-!
# Stacks of cells linked through a memory

Cells of equal size hold, at a fixed offset, the address of the next cell,
and the last one holds zero. A cell is pushed by one store and popped by one
load. What is stored in other cells does not matter to a stack.
-/

namespace BiscuitOS.LinkedCells

open ByteMemory

/-- The list of cells linked from `head` on. -/
def Linked (m : Memory) (offset : ℕ) : ℕ → List ℕ → Prop
  | head, [] => head = 0
  | head, x :: cells => head = x ∧ x ≠ 0 ∧ x < 2 ^ 64 ∧ Linked m offset (load m (x + offset) 8) cells

/-- Two cells of `size` bytes do not overlap. -/
def Apart (size x y : ℕ) : Prop := x + size ≤ y ∨ y + size ≤ x

variable {m m' : Memory} {size offset head x v : ℕ} {cells : List ℕ}

/-- Nothing is linked from zero. -/
@[simp] theorem linked_nil : Linked m offset head [] ↔ head = 0 := Iff.rfl

/-- The head tells whether there is a cell. -/
theorem Linked.nil_iff (h : Linked m offset head cells) : cells = [] ↔ head = 0 := by
  cases cells with
  | nil => exact ⟨fun _ => h, fun _ => rfl⟩
  | cons x cells =>
    obtain ⟨hx, hne, _⟩ := h
    exact ⟨fun hnil => absurd hnil (List.cons_ne_nil _ _), fun hzero => absurd (hx ▸ hzero) hne⟩

/-- A nonzero head is the first cell, and the rest is linked from the word in it. -/
theorem Linked.pop (h : Linked m offset head cells) (hne : head ≠ 0) :
    ∃ rest, cells = head :: rest ∧ Linked m offset (load m (head + offset) 8) rest := by
  cases cells with
  | nil => exact absurd h hne
  | cons x cells =>
    obtain ⟨hx, _, _, hrest⟩ := h
    exact ⟨cells, by rw [hx], hx ▸ hrest⟩

/-- The head of a stack is an address. -/
theorem Linked.head_lt (h : Linked m offset head cells) : head < 2 ^ 64 := by
  cases cells with
  | nil => rw [linked_nil.mp h]; positivity
  | cons x cells =>
    obtain ⟨hx, _, hlt, _⟩ := h
    omega

/-- A memory with the same words in the cells has the same stack. -/
theorem Linked.congr (h : Linked m offset head cells)
    (hsame : ∀ x ∈ cells, load m' (x + offset) 8 = load m (x + offset) 8) :
    Linked m' offset head cells := by
  induction cells generalizing head with
  | nil => exact h
  | cons x cells ih =>
    obtain ⟨hx, hne, hlt, hrest⟩ := h
    refine ⟨hx, hne, hlt, ?_⟩
    rw [hsame x List.mem_cons_self]
    exact ih hrest fun y hy => hsame y (List.mem_cons_of_mem x hy)

/-- A stack lives in its cells only. -/
theorem Linked.same (h : Linked m offset head cells) (hin : offset + 8 ≤ size)
    (hsame : ∀ x ∈ cells, Same m m' x size) : Linked m' offset head cells :=
  h.congr fun x hx => load_congr fun b hb hb' => hsame x hx b (by omega) (by omega)

/-- A store into another cell does not change a stack. -/
theorem Linked.store_apart (h : Linked m offset head cells) (hin : offset + 8 ≤ size)
    (hapart : ∀ y ∈ cells, Apart size x y) : Linked (store m (x + offset) 8 v) offset head cells :=
  h.congr fun y hy => load_store_apart (by have := hapart y hy; rw [Apart] at this; omega) v

/-- Storing the head into a new cell pushes the cell. -/
theorem Linked.push (h : Linked m offset head cells) (hin : offset + 8 ≤ size) (hne : x ≠ 0)
    (hlt : x < 2 ^ 64) (hapart : ∀ y ∈ cells, Apart size x y) :
    Linked (store m (x + offset) 8 head) offset x (x :: cells) := by
  refine ⟨rfl, hne, hlt, ?_⟩
  have hbytes : (256 : ℕ) ^ 8 = 2 ^ 64 := by norm_num
  rw [load_store, hbytes, Nat.mod_eq_of_lt h.head_lt]
  exact h.store_apart hin hapart

/-- A chain that was followed to its end is a stack. -/
theorem linked_of_chain {count : ℕ} (hcells : ∀ x ∈ cells, x ≠ 0 ∧ x < 2 ^ 64)
    (hlen : cells.length < count) (h : chain m offset count head = cells) :
    Linked m offset head cells := by
  induction cells generalizing count head with
  | nil =>
    obtain ⟨n, rfl⟩ : ∃ n, count = n + 1 := ⟨count - 1, by omega⟩
    rw [chain] at h
    by_cases hzero : head = 0
    · exact hzero
    · rw [if_neg hzero] at h
      cases h
  | cons x cells ih =>
    rw [List.length_cons] at hlen
    obtain ⟨n, rfl⟩ : ∃ n, count = n + 1 := ⟨count - 1, by omega⟩
    rw [chain] at h
    by_cases hzero : head = 0
    · rw [if_pos hzero] at h
      cases h
    · rw [if_neg hzero] at h
      injection h with hx hrest
      have hhere := hcells x List.mem_cons_self
      refine ⟨hx, hhere.1, hhere.2, ?_⟩
      rw [← hx]
      exact ih (fun y hy => hcells y (List.mem_cons_of_mem x hy)) (by omega) hrest

end BiscuitOS.LinkedCells
