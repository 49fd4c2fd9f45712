import Mathlib

/-!
# Entries on numbered lists

Entries that stand on one of several lists, each on the list of its key. An
entry is moved by unlinking it and linking it at the front or the end of
another list. A walk goes through a list entry by entry and then to the next
list; what it has still ahead is one list of entries.
-/

namespace BiscuitOS.BucketLists

variable {ι : Type*}

/-- Every member stands once on the list of its key, and nothing else stands on a list. -/
structure Placed (slots : ℕ → List ι) (key : ι → ℕ) (member : ι → Prop) : Prop where
  /-- Members stand on the list of their key. -/
  mem : ∀ id k, id ∈ slots k ↔ member id ∧ key id = k
  /-- They stand there once. -/
  nodup : ∀ k, (slots k).Nodup

variable {slots : ℕ → List ι} {key key' : ι → ℕ} {member member' : ι → Prop} {id : ι}

/-- Keys and members matter only on the members. -/
theorem Placed.congr (h : Placed slots key member) (hmember : ∀ j, member' j ↔ member j)
    (hkey : ∀ j, member j → key' j = key j) : Placed slots key' member' where
  mem := by
    intro j k
    rw [h.mem, hmember]
    refine and_congr_right fun hj => ?_
    rw [hkey j hj]
  nodup := h.nodup

/-- The entries of the lists from one on, up to the `n`-th. -/
def fromSlot (slots : ℕ → List ι) (n slot : ℕ) : List ι :=
  (List.range' slot (n - slot)).flatMap slots

/-- The walk from a list on begins with that list. -/
theorem fromSlot_of_lt {n slot : ℕ} (h : slot < n) :
    fromSlot slots n slot = slots slot ++ fromSlot slots n (slot + 1) := by
  have hn : n - slot = n - (slot + 1) + 1 := by omega
  rw [fromSlot, hn, List.range'_succ, List.flatMap_cons, fromSlot]

/-- Behind the last list nothing is left. -/
theorem fromSlot_of_le {n slot : ℕ} (h : n ≤ slot) : fromSlot slots n slot = [] := by
  rw [fromSlot, Nat.sub_eq_zero_of_le h]
  rfl

/-- The entries of a walk. -/
theorem mem_fromSlot {n slot : ℕ} {j : ι} :
    j ∈ fromSlot slots n slot ↔ ∃ k, slot ≤ k ∧ k < n ∧ j ∈ slots k := by
  rw [fromSlot, List.mem_flatMap]
  simp only [List.mem_range'_1]
  constructor
  · rintro ⟨k, ⟨hk, hk'⟩, hj⟩
    exact ⟨k, hk, by omega, hj⟩
  · rintro ⟨k, hk, hk', hj⟩
    exact ⟨k, ⟨hk, by omega⟩, hj⟩

/-- Lists before the walk do not matter. -/
theorem fromSlot_congr {slots' : ℕ → List ι} {n slot : ℕ} (h : ∀ k, slot ≤ k → slots' k = slots k) :
    fromSlot slots' n slot = fromSlot slots n slot := by
  rw [fromSlot, fromSlot, List.flatMap, List.flatMap]
  congr 1
  exact List.map_congr_left fun k hk => h k (List.mem_range'_1.mp hk).1

/-- An entry put before one of the lists is one more entry of the walk. -/
theorem fromSlot_insert {n slot k : ℕ} (hslot : slot ≤ k) (hk : k < n) (j : ι) :
    ∃ A B, fromSlot slots n slot = A ++ B ∧
      fromSlot (Function.update slots k (j :: slots k)) n slot = A ++ j :: B := by
  induction hd : k - slot generalizing slot with
  | zero =>
    have heq : slot = k := by omega
    have hlater := @fromSlot_congr ι slots (Function.update slots k (j :: slots k)) n (k + 1)
      fun m hm => Function.update_of_ne (by omega) _ _
    refine ⟨[], fromSlot slots n slot, rfl, ?_⟩
    rw [heq, fromSlot_of_lt hk, hlater, fromSlot_of_lt hk, Function.update_self]
    rfl
  | succ d ih =>
    obtain ⟨A, B, hold, hnew⟩ := @ih (slot + 1) (by omega) (by omega)
    refine ⟨slots slot ++ A, B, ?_, ?_⟩
    · rw [fromSlot_of_lt (by omega), hold, List.append_assoc]
    · rw [fromSlot_of_lt (by omega), hnew, Function.update_of_ne (by omega), List.append_assoc]

/-- The lists from the `n`-th down to the first one, in a row. -/
def gather (slots : ℕ → List ι) : ℕ → List ι
  | 0 => []
  | n + 1 => slots n ++ gather slots n

/-- The entries of a list with keys below `n`, each put on the list of its key, are gathered. -/
theorem gather_perm {l : List ι} (h : ∀ k, (slots k).Perm (l.filter fun j => key j = k)) (n : ℕ) :
    (gather slots n).Perm (l.filter fun j => key j < n) := by
  induction n with
  | zero =>
    rw [gather, List.filter_eq_nil_iff.mpr fun j _ => by simp]
  | succ n ih =>
    have hhere : (l.filter fun j => key j < n + 1).filter (fun j => key j = n) =
        l.filter fun j => key j = n := by
      rw [List.filter_filter]
      exact List.filter_congr fun j _ => by
        rw [← Bool.decide_and, decide_eq_decide]
        omega
    have hbelow : (l.filter fun j => key j < n + 1).filter (fun j => !decide (key j = n)) =
        l.filter fun j => key j < n := by
      rw [List.filter_filter]
      exact List.filter_congr fun j _ => by
        rw [← decide_not, ← Bool.decide_and, decide_eq_decide]
        omega
    have hsplit := List.filter_append_perm (fun j => decide (key j = n))
      (l.filter fun j => key j < n + 1)
    rw [hhere, hbelow] at hsplit
    exact ((h n).append ih).trans hsplit

/-- What was gathered is sorted by the keys, the greatest one first. -/
theorem gather_sorted (h : ∀ k, ∀ j ∈ slots k, key j = k) (n : ℕ) :
    (gather slots n).Pairwise (fun i j => key j ≤ key i) ∧ ∀ j ∈ gather slots n, key j < n := by
  induction n with
  | zero => exact ⟨.nil, fun j hj => (by cases hj)⟩
  | succ n ih =>
    rw [gather]
    refine ⟨List.pairwise_append.mpr ⟨?_, ih.1, fun i hi j hj => ?_⟩, fun j hj => ?_⟩
    · exact List.pairwise_of_forall_mem_list fun i hi j hj => by rw [h n i hi, h n j hj]
    · rw [h n i hi]
      exact (ih.2 j hj).le
    · rcases List.mem_append.mp hj with hj | hj
      · rw [h n j hj]
        exact Nat.lt_succ_self n
      · exact (ih.2 j hj).trans (Nat.lt_succ_self n)

variable [DecidableEq ι]

/-- The lists without one entry. -/
def unlink (slots : ℕ → List ι) (id : ι) : ℕ → List ι := fun k => (slots k).filter fun j => j ≠ id

/-- The lists with an entry moved to the front of one. -/
def moveHead (slots : ℕ → List ι) (id : ι) (k : ℕ) : ℕ → List ι :=
  Function.update (unlink slots id) k (id :: unlink slots id k)

/-- The lists with an entry moved to the end of one. -/
def moveTail (slots : ℕ → List ι) (id : ι) (k : ℕ) : ℕ → List ι :=
  Function.update (unlink slots id) k (unlink slots id k ++ [id])

/-- What is left of the lists without an entry. -/
theorem mem_unlink {j : ι} {k : ℕ} : j ∈ unlink slots id k ↔ j ∈ slots k ∧ j ≠ id := by
  rw [unlink, List.mem_filter, decide_eq_true_iff]

/-- An entry that is linked into the list of its new key is placed there. -/
theorem placed_update {new : List ι} (h : Placed slots key member)
    (hmember : ∀ j, member' j ↔ member j ∨ j = id) (hkey : ∀ j, member j → j ≠ id → key' j = key j)
    (hnew : ∀ j, j ∈ new ↔ j ∈ unlink slots id (key' id) ∨ j = id) (hnodup : new.Nodup) :
    Placed (Function.update (unlink slots id) (key' id) new) key' member' where
  mem := by
    intro j k
    by_cases hj : j = id
    · rw [hj, hmember]
      by_cases hk : k = key' id
      · rw [hk, Function.update_self, hnew]
        simp only [or_true, and_self]
      · rw [Function.update_of_ne hk, mem_unlink]
        simp only [ne_eq, not_true_eq_false, and_false, false_iff, not_and]
        exact fun _ hki => hk hki.symm
    · have hold : j ∈ unlink slots id k ↔ member' j ∧ key' j = k := by
        rw [mem_unlink, h.mem, hmember]
        simp only [hj, ne_eq, not_false_eq_true, and_true, or_false]
        refine and_congr_right fun hm => ?_
        rw [hkey j hm hj]
      by_cases hk : k = key' id
      · rw [hk, Function.update_self, hnew, ← hk, ← hold]
        simp only [hj, or_false]
      · rw [Function.update_of_ne hk, hold]
  nodup := by
    intro k
    by_cases hk : k = key' id
    · rw [hk, Function.update_self]
      exact hnodup
    · rw [Function.update_of_ne hk]
      exact (h.nodup k).filter _

/-- Moving an entry to the front of the list of its new key. -/
theorem placed_moveHead (h : Placed slots key member)
    (hmember : ∀ j, member' j ↔ member j ∨ j = id)
    (hkey : ∀ j, member j → j ≠ id → key' j = key j) :
    Placed (moveHead slots id (key' id)) key' member' := by
  refine placed_update h hmember hkey (fun j => ?_) (List.nodup_cons.mpr ⟨?_, ?_⟩)
  · rw [List.mem_cons, or_comm]
  · exact fun hid => (mem_unlink.mp hid).2 rfl
  · exact (h.nodup _).filter _

/-- Moving an entry to the end of the list of its new key. -/
theorem placed_moveTail (h : Placed slots key member)
    (hmember : ∀ j, member' j ↔ member j ∨ j = id)
    (hkey : ∀ j, member j → j ≠ id → key' j = key j) :
    Placed (moveTail slots id (key' id)) key' member' := by
  refine placed_update h hmember hkey (fun j => ?_) ?_
  · rw [List.mem_append, List.mem_singleton]
  · refine List.nodup_append.mpr ⟨(h.nodup _).filter _, List.nodup_singleton _, ?_⟩
    intro a ha b hb hab
    rw [List.mem_singleton.mp hb] at hab
    exact (mem_unlink.mp ha).2 hab

/-- An entry of a list and those behind it. -/
def fromEntry (id : ι) (l : List ι) : List ι := l.dropWhile fun j => j ≠ id

/-- The entry behind another one. -/
def entryAfter (id : ι) (l : List ι) : Option ι := (fromEntry id l).tail.head?

/-- The entries from the first one on. -/
theorem fromEntry_cons (id : ι) (l : List ι) : fromEntry id (id :: l) = id :: l := by
  simp only [fromEntry, List.dropWhile_cons, ne_eq, not_true_eq_false, decide_false,
    Bool.false_eq_true, if_false]

/-- Entries before the one looked for are passed. -/
theorem fromEntry_append {A B : List ι} (h : id ∉ A) : fromEntry id (A ++ id :: B) = id :: B := by
  rw [fromEntry, List.dropWhile_append_of_pos, ← fromEntry, fromEntry_cons]
  intro j hj
  exact decide_eq_true fun he => h (he ▸ hj)

/-- An entry of a list comes first of those from it on. -/
theorem fromEntry_eq {l : List ι} (hl : l.Nodup) (h : id ∈ l) : ∃ B, fromEntry id l = id :: B ∧
    (B = [] → entryAfter id l = none) ∧
    ∀ j C, B = j :: C → entryAfter id l = some j ∧ j ∈ l ∧ fromEntry j l = B := by
  obtain ⟨A, B, rfl⟩ := List.append_of_mem h
  have hA : id ∉ A := by
    have hn := List.nodup_middle.mp hl
    exact fun ha => (List.nodup_cons.mp hn).1 (List.mem_append_left _ ha)
  have hfrom := fromEntry_append (B := B) hA
  refine ⟨B, hfrom, fun hB => ?_, fun j C hB => ?_⟩
  · rw [entryAfter, hfrom, hB]
    rfl
  · have hj : j ∉ A ++ [id] := by
      rw [hB, ← List.singleton_append, ← List.append_assoc] at hl
      have hn := List.nodup_middle.mp hl
      exact fun ha => (List.nodup_cons.mp hn).1 (List.mem_append_left _ ha)
    refine ⟨?_, ?_, ?_⟩
    · rw [entryAfter, hfrom, hB]
      rfl
    · rw [hB]
      exact List.mem_append_right _ (List.mem_cons_of_mem _ List.mem_cons_self)
    · rw [hB, ← List.singleton_append, ← List.append_assoc]
      exact fromEntry_append hj

end BiscuitOS.BucketLists
