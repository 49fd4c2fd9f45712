import Mathlib

/-!
# Windows of an array

An array is a function of its index, and the part in use is the list of a
range of its entries. The lemmas say what moving a range and storing one
entry do to such a list.
-/

namespace BiscuitOS.ArrayWindow

variable {α : Type*}

/-- The `n` entries from index `a` on. -/
def window (m : ℕ → α) (a n : ℕ) : List α := (List.range n).map fun k : ℕ => m (a + k)

/-- The array after `memmove` of the `n` entries at `src` to `dst`. -/
def move (m : ℕ → α) (dst src n : ℕ) : ℕ → α := fun k : ℕ =>
  if dst ≤ k ∧ k < dst + n then m (src + (k - dst)) else m k

/-- An empty window. -/
@[simp] theorem window_zero (m : ℕ → α) (a : ℕ) : window m a 0 = [] := rfl

/-- A window has as many entries as asked for. -/
@[simp] theorem window_length (m : ℕ → α) (a n : ℕ) : (window m a n).length = n := by
  rw [window, List.length_map, List.length_range]

/-- The first entry of a window and the window after it. -/
theorem window_succ (m : ℕ → α) (a n : ℕ) : window m a (n + 1) = m a :: window m (a + 1) n := by
  rw [window, window, List.range_succ_eq_map, List.map_cons, List.map_map, Nat.add_zero]
  congr 1
  refine List.map_congr_left fun k _ => ?_
  rw [Function.comp_apply, Nat.succ_eq_add_one, Nat.add_assoc, Nat.add_comm 1 k]

/-- Two windows in a row. -/
theorem window_add (m : ℕ → α) (a n p : ℕ) :
    window m a (n + p) = window m a n ++ window m (a + n) p := by
  induction n generalizing a with
  | zero => rw [window_zero, List.nil_append, Nat.zero_add, Nat.add_zero]
  | succ n ih =>
    rw [Nat.add_right_comm, window_succ, window_succ, ih, List.cons_append]
    congr 3
    omega

/-- Windows with the same entries are equal. -/
theorem window_congr {m m' : ℕ → α} {a b n : ℕ} (h : ∀ k, k < n → m (a + k) = m' (b + k)) :
    window m a n = window m' b n :=
  List.map_congr_left fun k hk => h k (List.mem_range.mp hk)

/-- The target of a move holds the source. -/
theorem window_move_target (m : ℕ → α) (dst src n : ℕ) :
    window (move m dst src n) dst n = window m src n := by
  refine window_congr fun k hk => ?_
  rw [move, if_pos ⟨by omega, by omega⟩, Nat.add_sub_cancel_left]

/-- What lies before the target of a move stays. -/
theorem window_move_before (m : ℕ → α) {a dst src n p : ℕ} (h : a + p ≤ dst) :
    window (move m dst src n) a p = window m a p :=
  window_congr fun k hk => if_neg (by omega)

/-- The entry after `A` in a window of the array. -/
theorem apply_of_window {m : ℕ → α} {a n : ℕ} {A B : List α} {x : α}
    (h : window m a n = A ++ x :: B) : m (a + A.length) = x := by
  induction A generalizing a n with
  | nil =>
    cases n with
    | zero => cases h
    | succ n => exact (List.cons.inj ((window_succ m a n).symm.trans h)).1
  | cons y A ih =>
    cases n with
    | zero => cases h
    | succ n =>
      have ht := ih (List.cons.inj ((window_succ m a n).symm.trans h)).2
      rwa [List.length_cons, Nat.add_comm A.length 1, ← Nat.add_assoc]

/-- Storing outside a window leaves it alone. -/
theorem window_update_outside (m : ℕ → α) {a n i : ℕ} (x : α) (h : i < a ∨ a + n ≤ i) :
    window (Function.update m i x) a n = window m a n :=
  window_congr fun k hk => Function.update_of_ne (by omega) _ _

/-- Storing one entry of a window. -/
theorem window_update {m : ℕ → α} {a n : ℕ} {A B : List α} {x : α} (y : α)
    (h : window m a n = A ++ x :: B) :
    window (Function.update m (a + A.length) y) a n = A ++ y :: B := by
  induction A generalizing a n with
  | nil =>
    cases n with
    | zero => cases h
    | succ n =>
      rw [window_succ] at h ⊢
      rw [List.length_nil, Nat.add_zero, Function.update_self,
        window_update_outside m y (Or.inl (by omega)), (List.cons.inj h).2, List.nil_append]
  | cons z A ih =>
    cases n with
    | zero => cases h
    | succ n =>
      rw [window_succ] at h ⊢
      have ht := ih (List.cons.inj h).2
      rw [List.length_cons, Nat.add_comm A.length 1, ← Nat.add_assoc, ht,
        Function.update_of_ne (by omega), (List.cons.inj h).1, List.cons_append]

/-- The two parts of a window are windows. -/
theorem window_parts {m : ℕ → α} {n : ℕ} {A L : List α} (h : window m 0 n = A ++ L) :
    window m 0 A.length = A ∧ window m A.length (n - A.length) = L ∧ n = A.length + L.length := by
  have hn : n = A.length + L.length := by
    rw [← window_length m 0 n, h, List.length_append]
  have hs := window_add m 0 A.length L.length
  rw [← hn, h, Nat.zero_add] at hs
  obtain ⟨ha, hl⟩ := List.append_inj hs (window_length m 0 A.length).symm
  exact ⟨ha.symm, by rw [hn, Nat.add_sub_cancel_left]; exact hl.symm, hn⟩

/-- Moving the tail of a window up opens a gap of unspecified entries before it. -/
theorem window_open {m : ℕ → α} {n : ℕ} {A L : List α} (h : window m 0 n = A ++ L) (e : ℕ) :
    ∃ gap, gap.length = e ∧
      window (move m (A.length + e) A.length (n - A.length)) 0 (n + e) = A ++ (gap ++ L) := by
  obtain ⟨ha, hl, hn⟩ := window_parts h
  refine ⟨window (move m (A.length + e) A.length (n - A.length)) A.length e,
    window_length _ _ _, ?_⟩
  have hsum : n + e = A.length + (e + (n - A.length)) := by omega
  rw [hsum, window_add, window_add, Nat.zero_add, window_move_target, hl,
    window_move_before m (by omega), ha]

/-- Moving the entries after one of them down drops it. -/
theorem window_close {m : ℕ → α} {n : ℕ} {A B : List α} {x : α} (h : window m 0 n = A ++ x :: B) :
    window (move m A.length (A.length + 1) (n - 1 - A.length)) 0 (n - 1) = A ++ B := by
  obtain ⟨ha, hl, hn⟩ := window_parts h
  rw [List.length_cons] at hn
  have hb : n - A.length = (n - 1 - A.length) + 1 := by omega
  rw [hb, window_succ] at hl
  have hsum : n - 1 = A.length + (n - 1 - A.length) := by omega
  conv_lhs => rw [hsum, window_add, Nat.zero_add]
  rw [← hsum, window_move_target, window_move_before m (by omega), ha, (List.cons.inj hl).2]

end BiscuitOS.ArrayWindow
