import BiscuitOS.RadixModel

/-!
# Radix trees with one occupied path

The mask of the offsets is the size of a node, so an offset is either zero or
behind the last slot. Where all offsets are zero the tree is a spine: nodes
linked through their first slots that end at an item or at a missing child.
Extending, inserting and deleting are described on the spine.
-/

namespace BiscuitOS.RadixSpine

open MachineWord RadixModel

/-- The bits of an index that the mask lets through below the root are zero. -/
def LowDigits (index : ℕ) : Prop := ∀ j, 1 ≤ j → j ≤ 5 → index.testBit (mapShift * j) = false

/-- The word `p` at a height leads through first slots to the item `x`, zero when a child is
missing, along the nodes `l`. -/
inductive Spine (nodes : ℕ → RadixTreeNode) : ℕ → ℕ → ℕ → List ℕ → Prop
  /-- Below the lowest node. -/
  | leaf (x : ℕ) : Spine nodes 0 x x []
  /-- A child that does not exist. -/
  | missing (h : ℕ) : Spine nodes (h + 1) 0 0 []
  /-- A node. -/
  | node (h p x : ℕ) (l : List ℕ) (nonzero : p ≠ 0) (even : p % 2 = 0) (fresh : p ∉ l)
      (count : (nodes p).count = if (nodes p).slots 0 = 0 then 0 else 1)
      (tags : ∀ tag offset, (nodes p).tags tag offset = false)
      (below : Spine nodes h ((nodes p).slots 0) x l) : Spine nodes (h + 1) p x (p :: l)

variable {nodes : ℕ → RadixTreeNode} {t : RadixTree} {words h p x index : ℕ} {l : List ℕ}

/-- The offset is the size of a node times one bit of the index. -/
theorem slotOffset_eq (index below : ℕ) :
    slotOffset index below = (index.testBit (mapShift * (below + 1))).toNat * mapSize := by
  rw [slotOffset, mapMask, mapSize, Nat.and_two_pow, Nat.testBit_shiftRight]
  congr 3
  ring

/-- Where the bits are zero every offset is zero. -/
theorem slotOffset_zero (hlow : LowDigits index) (hindex : index < 2 ^ 32) (below : ℕ)
    (hb : below < 6) : slotOffset index below = 0 := by
  have hbit : index.testBit (mapShift * (below + 1)) = false := by
    by_cases h5 : below < 5
    · exact hlow (below + 1) (by omega) (by omega)
    · have he : below = 5 := by omega
      rw [he]
      exact Nat.testBit_lt_two_pow (hindex.trans_le (Nat.pow_le_pow_right (by omega) (by decide)))
  rw [slotOffset_eq, hbit, Bool.toNat_false, Nat.zero_mul]

/-- The root tag is taken off an even pointer. -/
theorem indirectToPtr_ptrToIndirect (hp : p % 2 = 0) : indirectToPtr (ptrToIndirect p) = p := by
  have hor : p ||| 1 = p + 1 := by
    have h := Nat.two_pow_add_eq_or_of_lt (i := 1) (b := 1) (by omega) (p / 2)
    rw [pow_one, Nat.mul_div_cancel' (Nat.dvd_of_mod_eq_zero hp)] at h
    exact h.symm
  rw [ptrToIndirect, hor, indirectToPtr]
  omega

/-- An even pointer has no tag. -/
theorem indirectToPtr_even (hp : p % 2 = 0) : indirectToPtr p = p := by
  rw [indirectToPtr, hp, Nat.sub_zero]

/-- A tagged pointer is not `NULL`. -/
theorem ptrToIndirect_ne_zero (p : ℕ) : ptrToIndirect p ≠ 0 := by
  rw [ptrToIndirect]
  exact fun h => absurd (Nat.or_eq_zero_iff.mp h).2 Nat.one_ne_zero

/-- A spine depends only on its nodes. -/
theorem Spine.congr {nodes' : ℕ → RadixTreeNode} (hs : Spine nodes h p x l)
    (he : ∀ a ∈ l, nodes' a = nodes a) : Spine nodes' h p x l := by
  induction hs with
  | leaf x => exact .leaf x
  | missing h => exact .missing h
  | node h p x l nonzero even fresh count tags below ih =>
    have hp := he p List.mem_cons_self
    have hbelow := ih fun a ha => he a (List.mem_cons_of_mem _ ha)
    refine .node h p x l nonzero even fresh ?_ ?_ ?_
    · rw [hp]
      exact count
    · rw [hp]
      exact tags
    · rw [hp]
      exact hbelow

/-- A missing child at any height. -/
theorem Spine.empty (nodes : ℕ → RadixTreeNode) : ∀ h, Spine nodes h 0 0 []
  | 0 => .leaf 0
  | h + 1 => .missing h

/-- A spine that ends at an item is complete. -/
theorem Spine.counts (hs : Spine nodes h p x l) (hx : x ≠ 0) :
    p ≠ 0 ∧ l.Nodup ∧ ∀ a ∈ l, (nodes a).count = 1 := by
  induction hs with
  | leaf x => exact ⟨hx, List.nodup_nil, fun a ha => (by cases ha)⟩
  | missing h => exact absurd rfl hx
  | node h p x l nonzero even fresh count tags below ih =>
    obtain ⟨hslot, hnodup, hcounts⟩ := ih hx
    refine ⟨nonzero, List.nodup_cons.mpr ⟨fresh, hnodup⟩, fun a ha => ?_⟩
    rcases List.mem_cons.mp ha with rfl | ha
    · rw [count, if_neg hslot]
    · exact hcounts a ha

/-- No node of a spine is tagged. -/
theorem Spine.tags (hs : Spine nodes h p x l) :
    ∀ a ∈ l, ∀ tag offset, (nodes a).tags tag offset = false := by
  induction hs with
  | leaf x => exact fun a ha => (by cases ha)
  | missing h => exact fun a ha => (by cases ha)
  | node h p x l nonzero even fresh count tags below ih =>
    intro a ha
    rcases List.mem_cons.mp ha with rfl | ha
    · exact tags
    · exact ih a ha

/-- Insertion finds the item at the end of a complete spine. -/
theorem insertFrom_full (hwords : 0 < words) (hs : Spine t.nodes h p x l) (hx : x ≠ 0)
    (hlow : LowDigits index) (hindex : index < 2 ^ 32) (hh : h ≤ 6) (item : ℕ)
    (answers : ℕ → Option ℕ) (k node offset : ℕ) :
    insertFrom words t index item answers k node offset p h = some (eexist, t, k) := by
  induction hs generalizing node offset with
  | leaf x => rw [insertFrom, if_pos hx]
  | missing h => exact absurd rfl hx
  | node h p x l nonzero even fresh count tags below ih =>
    have hz := slotOffset_zero hlow hindex h (by omega)
    rw [insertFrom, if_neg nonzero, hz, if_pos hwords]
    exact ih hx (by omega) p 0

/-- The walk down a spine. -/
theorem walkFrom_spine (hwords : 0 < words) (hs : Spine t.nodes h p x l)
    (hlow : LowDigits index) (hindex : index < 2 ^ 32) (hh : h ≤ 6) (path : List (ℕ × ℕ)) :
    ∃ path', walkFrom words t index p path h = some (x, path') ∧
      (x ≠ 0 → path' = (l.map fun a : ℕ => (a, 0)).reverse ++ path) := by
  induction hs generalizing path with
  | leaf x => exact ⟨path, rfl, fun _ => rfl⟩
  | missing h => exact ⟨path, by rw [walkFrom, if_pos rfl], fun hx => absurd rfl hx⟩
  | node h p x l nonzero even fresh count tags below ih =>
    have hz := slotOffset_zero hlow hindex h (by omega)
    obtain ⟨path', hw, hp⟩ := ih (by omega) ((p, 0) :: path)
    refine ⟨path', ?_, fun hx => ?_⟩
    · rw [walkFrom, if_neg nonzero, hz]
      dsimp only
      rw [if_pos hwords, hw]
    · rw [hp hx, List.map_cons, List.reverse_cons, List.append_assoc, List.singleton_append]

/-- Dropping a path of nodes with one child each leaves an empty tree. -/
theorem unlinkPath_all {path : List ℕ} (hnodup : path.Nodup)
    (hcount : ∀ a ∈ path, (t.nodes a).count = 1) :
    (unlinkPath t (path.map fun a : ℕ => (a, 0))).height = 0 ∧
      (unlinkPath t (path.map fun a : ℕ => (a, 0))).rnode = 0 ∧
      ∀ tag, (unlinkPath t (path.map fun a : ℕ => (a, 0))).rootTags tag = false := by
  induction path generalizing t with
  | nil => exact ⟨rfl, rfl, fun _ => rfl⟩
  | cons a path ih =>
    obtain ⟨hnew, hnodup⟩ := List.nodup_cons.mp hnodup
    have hone : ((setSlot t a 0 0).nodes a).count = 1 := by
      rw [setSlot_self]
      exact hcount a List.mem_cons_self
    have hzero : wrapSub 32 1 1 = 0 := by decide
    rw [List.map_cons, unlinkPath]
    simp only [hone, hzero, ne_eq, not_true_eq_false, if_false]
    refine ih hnodup fun b hb => ?_
    have hne : b ≠ a := fun he => hnew (he ▸ hb)
    rw [setCount_other _ _ hne, setSlot_other _ _ _ hne]
    exact hcount b (List.mem_cons_of_mem _ hb)

/-- From number `k` on the allocator returns even addresses, each at most once and none in `l`. -/
structure FreshFrom (answers : ℕ → Option ℕ) (k : ℕ) (l : List ℕ) : Prop where
  /-- Addresses are not `NULL`, even and new. -/
  fresh : ∀ j a, k ≤ j → answers j = some a → a ≠ 0 ∧ a % 2 = 0 ∧ a ∉ l
  /-- No address is returned twice. -/
  once : ∀ i j a, k ≤ i → k ≤ j → answers i = some a → answers j = some a → i = j

/-- The allocations after one that succeeded. -/
theorem FreshFrom.next {answers : ℕ → Option ℕ} {k a : ℕ} (h : FreshFrom answers k l)
    (hk : answers k = some a) : FreshFrom answers (k + 1) [a] where
  fresh j b hj hb := by
    obtain ⟨h0, h1, -⟩ := h.fresh j b (by omega) hb
    refine ⟨h0, h1, fun hm => ?_⟩
    rw [List.mem_singleton.mp hm] at hb
    have := h.once k j a le_rfl (by omega) hk hb
    omega
  once i j b hi hj := h.once i j b (by omega) (by omega)

/-- The allocations after one that succeeded, with its node on top. -/
theorem FreshFrom.push {answers : ℕ → Option ℕ} {k a : ℕ} (h : FreshFrom answers k l)
    (hk : answers k = some a) : FreshFrom answers (k + 1) (a :: l) where
  fresh j b hj hb := by
    obtain ⟨h0, h1, h2⟩ := h.fresh j b (by omega) hb
    refine ⟨h0, h1, fun hm => ?_⟩
    rcases List.mem_cons.mp hm with rfl | hm
    · have := h.once k j b le_rfl (by omega) hk hb
      omega
    · exact h2 hm
  once i j b hi hj := h.once i j b (by omega) (by omega)

/-- Fewer nodes are in use. -/
theorem FreshFrom.sub {answers : ℕ → Option ℕ} {k : ℕ} {l' : List ℕ} (h : FreshFrom answers k l)
    (hl : ∀ a ∈ l', a ∈ l) : FreshFrom answers k l' where
  fresh j a hj ha := (h.fresh j a hj ha).imp_right fun hc => hc.imp_right fun hn hm => hn (hl a hm)
  once := h.once

/-- What an insertion that tried the allocations from `k` on did to the spine `l` of a tree: its
end and its nodes. -/
structure Inserted (t : RadixTree) (answers : ℕ → Option ℕ) (k item : ℕ) (l : List ℕ) (x : ℕ)
    (l' : List ℕ) (r : ℤ × RadixTree × ℕ) : Prop where
  /-- The item is stored, or an allocation failed. -/
  outcome : r.1 = 0 ∧ x = item ∧ (∀ j, k ≤ j → j < r.2.2 → answers j ≠ none) ∨
    r.1 = enomem ∧ x = 0 ∧ ∃ j, k ≤ j ∧ j < r.2.2 ∧ answers j = none
  /-- Other nodes are untouched. -/
  frame : ∀ a ∉ l, (∀ j, k ≤ j → answers j ≠ some a) → r.2.1.nodes a = t.nodes a
  /-- New nodes are allocated. -/
  added : ∀ a ∈ l', a ∈ l ∨ ∃ j, k ≤ j ∧ j < r.2.2 ∧ answers j = some a
  /-- The root tags are the same. -/
  rootTags : r.2.1.rootTags = t.rootTags
  /-- The height is the same. -/
  height : r.2.1.height = t.height
  /-- Allocations are tried in order. -/
  tried : k ≤ r.2.2

/-- A node linked below the node `p`. -/
theorem linked_nodes {a : ℕ} (hne : p ≠ a) (offset : ℕ) (n : RadixTreeNode) :
    let added := setNode t a n
    let below := setSlot added p offset a
    let linked := setCount below p ((below.nodes p).count + 1)
    linked.nodes a = n ∧
      linked.nodes p = { t.nodes p with
        slots := Function.update (t.nodes p).slots offset a
        count := (t.nodes p).count + 1 } ∧
      ∀ b, b ≠ p → b ≠ a → linked.nodes b = t.nodes b := by
  dsimp only
  refine ⟨?_, ?_, fun b hp ha => ?_⟩
  · rw [setCount_other _ _ hne.symm, setSlot_other _ _ _ hne.symm, setNode_self]
  · rw [setCount_self, setSlot_self, setNode_other _ _ hne]
  · rw [setCount_other _ _ hp, setSlot_other _ _ _ hp, setNode_other _ _ ha]

/-- What a step of an insertion below the node `p` leaves: a spine that ends at the item or, when an
allocation failed, still at a missing child. -/
def Lengthened (t : RadixTree) (answers : ℕ → Option ℕ) (k item h p : ℕ) (l : List ℕ)
    (result : Option (ℤ × RadixTree × ℕ)) : Prop :=
  ∃ r x l', result = some r ∧ Inserted t answers k item (p :: l) x (p :: l') r ∧
    r.2.1.rnode = t.rnode ∧ Spine r.2.1.nodes (h + 1) p x (p :: l')

variable {answers : ℕ → Option ℕ} {k item : ℕ}

/-- No allocation returns a node of the spine. -/
theorem FreshFrom.not_head (h : FreshFrom answers k (p :: l)) {j : ℕ} (hj : k ≤ j) :
    answers j ≠ some p := fun hc => (h.fresh j p hj hc).2.2 List.mem_cons_self

/-- The item is stored in the lowest node. -/
theorem insertFrom_lowest (hitem : item ≠ 0) (hs : Spine t.nodes 1 p 0 (p :: l)) :
    Lengthened t answers k item 0 p l
      (insertFrom words t index item answers k p 0 ((t.nodes p).slots 0) 0) := by
  cases hs with
  | node _ _ _ _ nonzero even fresh count tags below =>
  generalize hslot : (t.nodes p).slots 0 = slot at below count
  cases below with
  | leaf _ =>
    refine ⟨_, item, [], by rw [insertFrom, if_neg (not_not.mpr rfl), if_pos nonzero], ?_, rfl, ?_⟩
    · exact
        { outcome := Or.inl ⟨rfl, rfl, fun j h1 h2 => absurd h1 (by dsimp only at h2; omega)⟩
          frame := fun a ha _ => by
            have hne := List.ne_of_not_mem_cons ha
            dsimp only
            rw [setSlot_other _ _ _ hne, setCount_other _ _ hne]
          added := fun a ha => Or.inl ha
          rootTags := rfl
          height := rfl
          tried := le_rfl }
    · dsimp only
      refine .node 0 p item [] nonzero even List.not_mem_nil ?_ ?_ ?_
      · simp only [setSlot_self, setCount_self, Function.update_self, hitem, if_false, count,
          if_true]
      · rw [setSlot_self, setCount_self]
        exact tags
      · rw [setSlot_self]
        dsimp only
        rw [Function.update_self]
        exact .leaf item

/-- The child is missing and its allocation fails. -/
theorem insertFrom_refused (hs : Spine t.nodes (h + 2) p 0 (p :: l))
    (hslot : (t.nodes p).slots 0 = 0) (hk : answers k = none) :
    Lengthened t answers k item (h + 1) p l
      (insertFrom words t index item answers k p 0 ((t.nodes p).slots 0) (h + 1)) := by
  rw [hslot, insertFrom, if_pos rfl, hk]
  refine ⟨_, 0, l, rfl, ?_, rfl, hs⟩
  exact
    { outcome := Or.inr ⟨rfl, rfl, k, le_rfl, Nat.lt_succ_self k, hk⟩
      frame := fun _ _ _ => rfl
      added := fun a ha => Or.inl ha
      rootTags := rfl
      height := rfl
      tried := Nat.le_succ k }

/-- What is inserted below a node that was linked first. -/
theorem Inserted.linked {linked : RadixTree} {a : ℕ} {l' : List ℕ} {r : ℤ × RadixTree × ℕ}
    (h : Inserted linked answers (k + 1) item [a] x (a :: l') r) (hk : answers k = some a)
    (hrootTags : linked.rootTags = t.rootTags) (hheight : linked.height = t.height)
    (hother : ∀ b, b ≠ p → b ≠ a → linked.nodes b = t.nodes b) :
    Inserted t answers k item (p :: l) x (p :: a :: l') r where
  outcome := h.outcome.imp
    (fun ho => ⟨ho.1, ho.2.1, fun j h1 h2 => by
      by_cases hj : j = k
      · rw [hj, hk]
        exact Option.some_ne_none a
      · exact ho.2.2 j (by omega) h2⟩)
    (fun ho => by
      obtain ⟨h1, h2, j, h3, h4, h5⟩ := ho
      exact ⟨h1, h2, j, by omega, h4, h5⟩)
  frame b hb hn := by
    have hba : b ≠ a := fun he => hn k le_rfl (he ▸ hk)
    rw [h.frame b (fun hm => hba (List.mem_singleton.mp hm)) fun j hj => hn j (by omega),
      hother b (List.ne_of_not_mem_cons hb) hba]
  added b hb := by
    have hlt := h.tried
    rcases List.mem_cons.mp hb with rfl | hb
    · exact Or.inl List.mem_cons_self
    · rcases h.added b hb with hc | ⟨j, h1, h2, h3⟩
      · exact Or.inr ⟨k, le_rfl, by omega, List.mem_singleton.mp hc ▸ hk⟩
      · exact Or.inr ⟨j, by omega, h2, h3⟩
  rootTags := h.rootTags.trans hrootTags
  height := h.height.trans hheight
  tried := (Nat.le_succ k).trans h.tried

/-- What is inserted below a child is inserted below the node. -/
theorem Inserted.above {l' : List ℕ} {r : ℤ × RadixTree × ℕ}
    (h : Inserted t answers k item l x l' r) : Inserted t answers k item (p :: l) x (p :: l') r where
  outcome := h.outcome
  frame a ha hn := h.frame a (fun hm => ha (List.mem_cons_of_mem _ hm)) hn
  added a ha := by
    rcases List.mem_cons.mp ha with rfl | ha
    · exact Or.inl List.mem_cons_self
    · exact (h.added a ha).imp_left (List.mem_cons_of_mem _)
  rootTags := h.rootTags
  height := h.height
  tried := h.tried

/-- A new node without children is a spine. -/
theorem Spine.fresh {a : ℕ} (ha : a ≠ 0) (heven : a % 2 = 0)
    (hnode : nodes a = { zeroedNode with height := h + 1 }) : Spine nodes (h + 1) a 0 [a] := by
  refine .node h a 0 [] ha heven List.not_mem_nil ?_ ?_ ?_
  · rw [hnode]
    rfl
  · rw [hnode]
    exact fun _ _ => rfl
  · rw [hnode]
    exact .empty _ h

/-- The child is missing and a node is linked for it. -/
theorem insertFrom_linked {a : ℕ} (hwords : 0 < words) (hz : slotOffset index h = 0)
    (ih : ∀ t : RadixTree, Spine t.nodes (h + 1) a 0 [a] → Lengthened t answers (k + 1) item h a []
      (insertFrom words t index item answers (k + 1) a 0 ((t.nodes a).slots 0) h))
    (hs : Spine t.nodes (h + 2) p 0 (p :: l)) (hslot : (t.nodes p).slots 0 = 0)
    (hfresh : FreshFrom answers k (p :: l)) (hk : answers k = some a) :
    Lengthened t answers k item (h + 1) p l
      (insertFrom words t index item answers k p 0 ((t.nodes p).slots 0) (h + 1)) := by
  cases hs with
  | node _ _ _ _ nonzero even fresh count tags below =>
  obtain ⟨ha0, haeven, hanew⟩ := hfresh.fresh k a le_rfl hk
  have hpa : p ≠ a := fun he => hanew (he ▸ List.mem_cons_self)
  have hlinked := linked_nodes (t := t) hpa 0 { zeroedNode with height := h + 1 }
  rw [hslot, insertFrom, if_pos rfl, hk]
  dsimp only at hlinked ⊢
  rw [if_pos nonzero, hz, if_pos hwords]
  generalize hL : setCount (setSlot (setNode t a { zeroedNode with height := h + 1 }) p 0 a) p
    (((setSlot (setNode t a { zeroedNode with height := h + 1 }) p 0 a).nodes p).count + 1) =
      linked at hlinked ⊢
  have hroot : linked.rnode = t.rnode ∧ linked.rootTags = t.rootTags ∧
      linked.height = t.height := by
    rw [← hL]
    exact ⟨rfl, rfl, rfl⟩
  obtain ⟨r, x, l', hr, hins, hrnode, hspine⟩ := ih linked (.fresh ha0 haeven hlinked.1)
  have hp : ∀ j, k + 1 ≤ j → answers j ≠ some p := fun j hj => hfresh.not_head (by omega)
  have hpr : r.2.1.nodes p = linked.nodes p :=
    hins.frame p (fun hm => hpa (List.mem_singleton.mp hm)) hp
  refine ⟨r, x, a :: l', hr, hins.linked hk hroot.2.1 hroot.2.2 hlinked.2.2,
    hrnode.trans hroot.1, ?_⟩
  refine .node (h + 1) p x (a :: l') nonzero even (fun hm => ?_) ?_ ?_ ?_
  · rcases hins.added p hm with hc | ⟨j, hj, -, hc⟩
    · exact hpa (List.mem_singleton.mp hc)
    · exact hp j hj hc
  · rw [hpr, hlinked.2.1]
    simp only [Function.update_self, ha0, if_false, count, hslot, if_true]
  · rw [hpr, hlinked.2.1]
    exact tags
  · rw [hpr, hlinked.2.1]
    dsimp only
    rw [Function.update_self]
    exact hspine

/-- The child exists. -/
theorem insertFrom_descends {slot : ℕ} (hwords : 0 < words) (hz : slotOffset index h = 0)
    (hs : Spine t.nodes (h + 2) p 0 (p :: l)) (hslot : (t.nodes p).slots 0 = slot) (h0 : slot ≠ 0)
    (hfresh : FreshFrom answers k (p :: l))
    (ih : ∀ l', l = slot :: l' → Lengthened t answers k item h slot l'
      (insertFrom words t index item answers k slot 0 ((t.nodes slot).slots 0) h)) :
    Lengthened t answers k item (h + 1) p l
      (insertFrom words t index item answers k p 0 ((t.nodes p).slots 0) (h + 1)) := by
  cases hs with
  | node _ _ _ _ nonzero even fresh count tags below =>
  rw [hslot] at below count ⊢
  cases below with
  | missing _ => exact absurd rfl h0
  | node _ _ _ l _ _ _ _ _ _ =>
    obtain ⟨r, x, l', hr, hins, hrnode, hspine⟩ := ih l rfl
    have hpr : r.2.1.nodes p = t.nodes p := hins.frame p fresh fun j hj => hfresh.not_head hj
    refine ⟨r, x, slot :: l', ?_, hins.above, hrnode, ?_⟩
    · rw [insertFrom, if_neg h0, hz, if_pos hwords]
      exact hr
    · refine .node (h + 1) p x (slot :: l') nonzero even (fun hm => ?_) ?_ ?_ ?_
      · rcases hins.added p hm with hc | ⟨j, hj, -, hc⟩
        · exact fresh hc
        · exact hfresh.not_head hj hc
      · rw [hpr, hslot, count]
      · rw [hpr]
        exact tags
      · rw [hpr, hslot]
        exact hspine

/-- Insertion below a node of an unfinished spine. -/
theorem insertFrom_spine (hwords : 0 < words) (hlow : LowDigits index) (hindex : index < 2 ^ 32)
    (hitem : item ≠ 0) (hh : h + 1 ≤ 6) (hs : Spine t.nodes (h + 1) p 0 (p :: l))
    (hfresh : FreshFrom answers k (p :: l)) :
    Lengthened t answers k item h p l
      (insertFrom words t index item answers k p 0 ((t.nodes p).slots 0) h) := by
  induction h generalizing t p l k with
  | zero => exact insertFrom_lowest hitem hs
  | succ h ih =>
    have hz := slotOffset_zero hlow hindex h (by omega)
    by_cases hslot : (t.nodes p).slots 0 = 0
    · cases hk : answers k with
      | none => exact insertFrom_refused hs hslot hk
      | some a =>
        exact insertFrom_linked hwords hz
          (fun t hchild => ih (by omega) hchild (hfresh.next hk)) hs hslot hfresh hk
    · refine insertFrom_descends hwords hz hs rfl hslot hfresh fun l' hl => ?_
      have hbelow : Spine t.nodes (h + 1) ((t.nodes p).slots 0) 0 l := by
        cases hs with
        | node _ _ _ _ _ _ _ _ _ below => exact below
      rw [hl] at hbelow hfresh
      exact ih (by omega) hbelow
        (hfresh.sub fun a ha => List.mem_cons_of_mem _ ha)

end BiscuitOS.RadixSpine
