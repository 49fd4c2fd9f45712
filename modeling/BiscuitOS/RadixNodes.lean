import BiscuitOS.RadixHistory

/-!
# Nodes of a radix tree

Nodes that `radix_tree_insert` allocates and `radix_tree_delete` drops. As long
as no node is dropped every node is counted, knows its height and is reachable
from the root. A node that is dropped goes to `call_rcu`, which has an empty
body, and is never given back. An item or a node stored behind the slots is
counted but found in none of them.
-/

namespace BiscuitOS.RadixNodes

open TransitionRun RadixModel RadixSpine RadixHistory

/-- A tree with its map and nodes, and whether the last operation was a deletion. -/
structure NodeWorld where
  /-- The tree, the map and the nodes that were allocated; none of these is freed, since `call_rcu`
  does not run `radix_tree_node_rcu_free`. -/
  world : RadixWorld
  /-- The last operation was a deletion. -/
  deleted : Bool

/-- The node is reachable from the root at a height from the bottom. -/
inductive Reachable (t : RadixTree) : ℕ → ℕ → Prop
  /-- The top node. -/
  | root (high : t.height ≠ 0) (linked : t.rnode ≠ 0) :
      Reachable t t.height (indirectToPtr t.rnode)
  /-- A child that is not `NULL`. -/
  | child {level a i : ℕ} (above : Reachable t (level + 2) a) (slot : i < mapSize)
      (linked : (t.nodes a).slots i ≠ 0) : Reachable t (level + 1) ((t.nodes a).slots i)

/-- Number of slots that are not `NULL`. -/
def boundSlots (n : RadixTreeNode) : ℕ := (List.range mapSize).countP fun i => decide (n.slots i ≠ 0)

/-- What the nodes are to be in every state: counted, at their height, all reachable, none without an
item, and none too many after a deletion. -/
structure NodesSound (w : NodeWorld) : Prop where
  /-- The count of a node is its number of children and its height the distance from the bottom. -/
  counted : ∀ level a, Reachable w.world.tree level a →
    (w.world.tree.nodes a).count = boundSlots (w.world.tree.nodes a) ∧
      1 ≤ (w.world.tree.nodes a).count ∧ (w.world.tree.nodes a).height = level
  /-- Every node allocated and not freed is reachable. -/
  reachable : ∀ a ∈ w.world.used, ∃ level, Reachable w.world.tree level a
  /-- Without an item there is no root, no height and no node. -/
  emptied : (∀ k, w.world.map k = none) →
    w.world.tree.rnode = 0 ∧ w.world.tree.height = 0 ∧ w.world.used = []
  /-- After a deletion the top node has more than a child in its first slot. -/
  minimal : w.deleted = true → w.world.tree.height ≠ 0 →
    ¬((w.world.tree.nodes (indirectToPtr w.world.tree.rnode)).count = 1 ∧
      (w.world.tree.nodes (indirectToPtr w.world.tree.rnode)).slots 0 ≠ 0)

/-- The operation is a deletion. -/
def deletes : RadixOp → Bool
  | .insert _ _ _ => false
  | .delete _ => true

/-- Perform an operation as the program does, which also uses the word behind the slots of a node,
and note a deletion. -/
def performNoted (w : NodeWorld) (op : RadixOp) : Option NodeWorld :=
  (perform (mapSize + 1) w.world op).map fun t => ⟨t, deletes op⟩

/-- An insertion is successful; a deletion may be any. -/
def Succeeds (w : RadixWorld) : RadixOp → Prop
  | .insert index item answers =>
    ∀ r, radixTreeInsert (mapSize + 1) w.tree index item answers = some r → r.1 = 0
  | .delete _ => True

/-- An insertion names an index whose digits are zero where the mask lets them through, and a
deletion finds a tree without height. -/
def KeepsNodes (w : NodeWorld) : RadixOp → Prop
  | .insert index _ _ => LowDigits index
  | .delete _ => w.world.tree.height = 0

/-- The word `p` at a height leads through nodes of one child each, at the offsets of `path`, to the
item `x`. -/
inductive Built (nodes : ℕ → RadixTreeNode) (path : ℕ → ℕ) : ℕ → ℕ → ℕ → List ℕ → Prop
  /-- The item. -/
  | leaf (x : ℕ) : Built nodes path 0 x x []
  /-- A node. -/
  | node (h p next x : ℕ) (l : List ℕ) (nonzero : p ≠ 0) (even : p % 2 = 0) (fresh : p ∉ l)
      (content : nodes p =
        ⟨h + 1, 1, Function.update (fun _ => 0) (path h) next, fun _ _ => false⟩)
      (below : Built nodes path h next x l) : Built nodes path (h + 1) p x (p :: l)

/-- The path through the first slots. -/
def firstSlots : ℕ → ℕ := fun _ => 0

variable {nodes nodes' : ℕ → RadixTreeNode} {t : RadixTree} {path : ℕ → ℕ}
  {words h p x k index item : ℕ} {l : List ℕ} {answers : ℕ → Option ℕ}

/-- They depend only on their nodes. -/
theorem Built.congr (hb : Built nodes path h p x l) (he : ∀ a ∈ l, nodes' a = nodes a) :
    Built nodes' path h p x l := by
  induction hb with
  | leaf x => exact .leaf x
  | node h p next x l nonzero even fresh content below ih =>
    have hp := he p List.mem_cons_self
    exact .node h p next x l nonzero even fresh (hp.trans content)
      (ih fun a ha => he a (List.mem_cons_of_mem _ ha))

/-- They depend only on the offsets below their height. -/
theorem Built.along {path' : ℕ → ℕ} (hb : Built nodes path h p x l)
    (he : ∀ below < h, path' below = path below) : Built nodes path' h p x l := by
  induction hb with
  | leaf x => exact .leaf x
  | node h p next x l nonzero even fresh content below ih =>
    refine .node h p next x l nonzero even fresh ?_ (ih fun b hb => he b (Nat.lt_succ_of_lt hb))
    rw [he h (Nat.lt_succ_self h)]
    exact content

/-- They lead to a word that is not `NULL`. -/
theorem Built.ne_zero (hb : Built nodes path h p x l) (hx : x ≠ 0) : p ≠ 0 := by
  cases hb with
  | leaf _ => exact hx
  | node h p next x l nonzero even fresh content below => exact nonzero

/-- One slot of many. -/
theorem boundSlots_one {n : RadixTreeNode} {v : ℕ} (hn : n.slots = Function.update (fun _ => 0) 0 v)
    (hv : v ≠ 0) : boundSlots n = 1 := by
  have hsize : List.range mapSize = 0 :: (List.range 63).map Nat.succ := rfl
  have hrest : ((List.range 63).map Nat.succ).countP (fun i => decide (n.slots i ≠ 0)) = 0 := by
    refine List.countP_eq_zero.mpr fun i hi => ?_
    obtain ⟨j, -, rfl⟩ := List.mem_map.mp hi
    rw [hn, Function.update_of_ne (Nat.succ_ne_zero j)]
    simp only [ne_eq, not_true_eq_false, decide_false, Bool.false_eq_true, not_false_eq_true]
  rw [boundSlots, hsize, List.countP_cons_of_pos, hrest]
  rw [hn, Function.update_self]
  exact decide_eq_true hv

/-- The word behind the slots is none of them. -/
theorem boundSlots_behind {n m : RadixTreeNode} {v : ℕ}
    (hn : n.slots = Function.update m.slots mapSize v) : boundSlots n = boundSlots m := by
  refine List.countP_congr fun i hi => ?_
  rw [hn, Function.update_of_ne (List.mem_range.mp hi).ne]

/-- A node without children. -/
theorem boundSlots_zero {n : RadixTreeNode} (hn : n.slots = fun _ => 0) : boundSlots n = 0 := by
  refine List.countP_eq_zero.mpr fun i _ => ?_
  rw [hn]
  simp only [ne_eq, not_true_eq_false, decide_false, Bool.false_eq_true, not_false_eq_true]

/-- A node that leads to an item has its child in a slot or behind them. -/
theorem Built.slot {next : ℕ}
    (content : nodes p = ⟨h + 1, 1, Function.update (fun _ => 0) (path h) next, fun _ _ => false⟩) :
    (nodes p).slots (path h) = next := by
  rw [content]
  dsimp only
  rw [Function.update_self]

/-- Nothing is behind the slots of a node whose child is in the first one. -/
theorem Built.behind {next : ℕ}
    (content : nodes p =
      ⟨h + 1, 1, Function.update (fun _ => 0) (firstSlots h) next, fun _ _ => false⟩) :
    (nodes p).slots mapSize = 0 := by
  rw [content]
  exact Function.update_of_ne (show mapSize ≠ firstSlots h from mapSize_pos.ne') next _

/-- A node below a reachable one that leads to an item is counted. -/
theorem built_reachable (hb : Built t.nodes firstSlots t.height (indirectToPtr t.rnode) x l)
    {level a : ℕ} (ha : Reachable t level a) :
    ∃ m, Built t.nodes firstSlots level a x m ∧ level ≠ 0 := by
  induction ha with
  | root high linked => exact ⟨l, hb, high⟩
  | child above slot linked ih =>
    obtain ⟨m, hm, -⟩ := ih
    cases hm with
    | node h p next x l nonzero even fresh content below =>
      rename_i i
      have hslot : (t.nodes _).slots 0 = next := Built.slot content
      have hi : i = 0 := by
        by_contra hne
        rw [content] at linked
        dsimp only at linked
        exact linked (Function.update_of_ne (show i ≠ firstSlots _ from hne) _ _)
      rw [hi, hslot]
      exact ⟨l, below, Nat.succ_ne_zero _⟩

/-- The child of a reachable node is reachable when its offset is inside. -/
theorem reachable_next {next : ℕ}
    (content : t.nodes p = ⟨h + 1, 1, Function.update (fun _ => 0) (path h) next, fun _ _ => false⟩)
    (hreach : Reachable t (h + 1) p) (hinside : path h < mapSize) (hnext : next ≠ 0) (hh : h ≠ 0) :
    Reachable t h next := by
  obtain ⟨level, rfl⟩ := Nat.exists_eq_succ_of_ne_zero hh
  have hslot := Built.slot content
  have hchild := Reachable.child hreach hinside (hslot.symm ▸ hnext)
  rwa [hslot] at hchild

/-- The nodes that lead to an item are reachable. -/
theorem reachable_built (hb : Built t.nodes firstSlots h p x l) (hx : x ≠ 0)
    (hp : h ≠ 0 → Reachable t h p) : ∀ a ∈ l, ∃ level, Reachable t level a := by
  induction hb with
  | leaf x => exact fun a ha => by cases ha
  | node h p next x l nonzero even fresh content below ih =>
    have hreach := hp (Nat.succ_ne_zero h)
    intro a ha
    rcases List.mem_cons.mp ha with heq | hin
    · exact ⟨h + 1, heq ▸ hreach⟩
    · exact ih hx (fun hh => reachable_next content hreach mapSize_pos (below.ne_zero hx) hh) a hin

/-- A node is reachable whose count is not its number of children. -/
def Miscounted (t : RadixTree) : Prop :=
  ∃ level a, Reachable t level a ∧ (t.nodes a).count ≠ boundSlots (t.nodes a)

/-- A node whose child is behind its slots is miscounted. -/
theorem Built.miscounted (hb : Built t.nodes path h p x l) (hx : x ≠ 0)
    (hp : h ≠ 0 → Reachable t h p) (hpath : ∀ below < h, path below < mapSize ∨ path below = mapSize)
    (hbehind : ¬∀ below < h, path below < mapSize) : Miscounted t := by
  induction hb with
  | leaf x => exact absurd (fun below hb => absurd hb (Nat.not_lt_zero below)) hbehind
  | node h p next x l nonzero even fresh content below ih =>
    have hreach := hp (Nat.succ_ne_zero h)
    rcases hpath h (Nat.lt_succ_self h) with hinside | hmap
    · refine ih hx (fun hh => reachable_next content hreach hinside (below.ne_zero hx) hh)
        (fun b hb => hpath b (Nat.lt_succ_of_lt hb)) fun hall => hbehind fun b hb => ?_
      exact (Nat.lt_succ_iff_lt_or_eq.mp hb).elim (hall b) fun he => he ▸ hinside
    · refine ⟨h + 1, p, hreach, ?_⟩
      have hzero : boundSlots (t.nodes p) = 0 := by
        rw [boundSlots_behind (m := zeroedNode) (v := next) (by rw [content, hmap]; rfl)]
        exact boundSlots_zero rfl
      rw [hzero, content]
      exact Nat.one_ne_zero

/-- What a successful insertion below an empty place built. -/
structure Filled (t : RadixTree) (item : ℕ) (answers : ℕ → Option ℕ) (k node offset : ℕ)
    (path : ℕ → ℕ) (h p : ℕ) (l : List ℕ) (r : ℤ × RadixTree × ℕ) : Prop where
  /-- The nodes down to the item. -/
  built : Built r.2.1.nodes path h p item l
  /-- They are linked to the node above. -/
  above : node ≠ 0 → r.2.1.nodes node = { t.nodes node with
    count := (t.nodes node).count + 1
    slots := Function.update (t.nodes node).slots offset p }
  /-- Or they are linked to the root. -/
  root : node = 0 → r.2.1.rnode = if h = 0 then item else ptrToIndirect p
  /-- The root is otherwise the same. -/
  rnode : node ≠ 0 → r.2.1.rnode = t.rnode
  /-- The height is the same. -/
  height : r.2.1.height = t.height
  /-- Other nodes are the same. -/
  frame : ∀ b, b ≠ node → b ∉ l → r.2.1.nodes b = t.nodes b
  /-- The nodes were allocated. -/
  fresh : ∀ a ∈ l, ∃ j, k ≤ j ∧ j < r.2.2 ∧ answers j = some a
  /-- No other one was. -/
  tried : ∀ j a, k ≤ j → j < r.2.2 → answers j = some a → a ∈ l
  /-- Allocations are tried in order. -/
  order : k ≤ r.2.2

/-- A new node linked below the node `node`, or to the root. -/
theorem linked_root {node a : ℕ} (hne : node ≠ a) (offset : ℕ) {linked : RadixTree}
    (hL : (if node ≠ 0 then
          setCount (setSlot (setNode t a { zeroedNode with height := h + 1 }) node offset a) node
            (((setSlot (setNode t a { zeroedNode with height := h + 1 }) node offset a).nodes
              node).count + 1)
        else { setNode t a { zeroedNode with height := h + 1 } with rnode := ptrToIndirect a }) =
          linked) :
    linked.nodes a = { zeroedNode with height := h + 1 } ∧
      linked.height = t.height ∧ (node = 0 → linked.rnode = ptrToIndirect a) ∧
      (node ≠ 0 → linked.rnode = t.rnode ∧ linked.nodes node = { t.nodes node with
        slots := Function.update (t.nodes node).slots offset a
        count := (t.nodes node).count + 1 }) ∧
      ∀ b, b ≠ node → b ≠ a → linked.nodes b = t.nodes b := by
  by_cases hnode : node ≠ 0
  · rw [if_pos hnode] at hL
    have hlinked := linked_nodes (t := t) hne offset { zeroedNode with height := h + 1 }
    dsimp only at hlinked
    rw [hL] at hlinked
    exact ⟨hlinked.1, hL ▸ rfl, fun hz => absurd hz hnode,
      fun _ => ⟨hL ▸ rfl, hlinked.2.1⟩, hlinked.2.2⟩
  · rw [if_neg hnode] at hL
    rw [← hL]
    exact ⟨setNode_self _ _ _, rfl, fun _ => rfl, fun hc => absurd hc hnode,
      fun b _ hb => setNode_other _ _ hb⟩

/-- What is built below a new node that was linked first. -/
theorem Filled.linked {node offset a : ℕ} {linked : RadixTree} {r : ℤ × RadixTree × ℕ}
    (hfilled : Filled linked item answers (k + 1) a (path h) path h p l r) (hne : node ≠ a)
    (ha0 : a ≠ 0) (haeven : a % 2 = 0) (hfresh : FreshFrom answers k [node])
    (hk : answers k = some a)
    (hL : (if node ≠ 0 then
          setCount (setSlot (setNode t a { zeroedNode with height := h + 1 }) node offset a) node
            (((setSlot (setNode t a { zeroedNode with height := h + 1 }) node offset a).nodes
              node).count + 1)
        else { setNode t a { zeroedNode with height := h + 1 } with rnode := ptrToIndirect a }) =
          linked) :
    Filled t item answers k node offset path (h + 1) a (a :: l) r := by
  obtain ⟨hcontent, hheight, hroot, habove, hother⟩ := linked_root hne offset hL
  have hafter := hfilled.above ha0
  have ha : a ∉ l := fun hin => by
    obtain ⟨j, hj, -, hsome⟩ := hfilled.fresh a hin
    have := hfresh.once k j a le_rfl (by omega) hk hsome
    omega
  have hnode : node ∉ l := fun hin => by
    obtain ⟨j, hj, -, hsome⟩ := hfilled.fresh node hin
    exact (hfresh.fresh j node (by omega) hsome).2.2 List.mem_cons_self
  refine ⟨?_, fun hne0 => ?_, fun hz0 => ?_, fun hne0 => ?_, ?_, fun b hb hbl => ?_,
    fun b hb => ?_, fun j b hj hlt hsome => ?_, (Nat.le_succ k).trans hfilled.order⟩
  · refine .node h a p item l ha0 haeven ha ?_ hfilled.built
    rw [hafter, hcontent]
    rfl
  · rw [hfilled.frame node hne hnode, (habove hne0).2]
  · rw [hfilled.rnode ha0, hroot hz0, if_neg (Nat.succ_ne_zero h)]
  · rw [hfilled.rnode ha0, (habove hne0).1]
  · exact hfilled.height.trans hheight
  · have hba : b ≠ a := List.ne_of_not_mem_cons hbl
    rw [hfilled.frame b hba (List.not_mem_of_not_mem_cons hbl), hother b hb hba]
  · rcases List.mem_cons.mp hb with heq | hin
    · exact ⟨k, le_rfl, hfilled.order, heq ▸ hk⟩
    · obtain ⟨j, hj, hlt, hsome⟩ := hfilled.fresh b hin
      exact ⟨j, by omega, hlt, hsome⟩
  · by_cases hjk : j = k
    · rw [hjk, hk, Option.some.injEq] at hsome
      exact hsome ▸ List.mem_cons_self
    · exact List.mem_cons_of_mem _ (hfilled.tried j b (by omega) hlt hsome)

/-- The item is stored in the node above, or in the root. -/
theorem filled_item {node offset : ℕ} {r : ℤ × RadixTree × ℕ}
    (hr : insertFrom words t index item answers k node offset 0 0 = some r) :
    Filled t item answers k node offset path 0 item [] r := by
  rw [insertFrom, if_neg (not_not.mpr rfl)] at hr
  by_cases hnode : node ≠ 0
  · rw [if_pos hnode, Option.some.injEq] at hr
    rw [← hr]
    refine ⟨.leaf item, fun _ => ?_, fun hz => absurd hz hnode, fun _ => rfl, rfl,
      fun b hb _ => ?_, fun a ha => (by cases ha),
      fun j a hj hlt => absurd hlt (not_lt.mpr hj), le_rfl⟩
    · dsimp only
      rw [setSlot_self, setCount_self]
    · dsimp only
      rw [setSlot_other _ _ _ hb, setCount_other _ _ hb]
  · rw [if_neg hnode, Option.some.injEq] at hr
    rw [← hr]
    exact ⟨.leaf item, fun hne => absurd hne hnode, fun _ => rfl,
      fun hne => absurd hne hnode, rfl, fun b _ _ => rfl, fun a ha => (by cases ha),
      fun j a hj hlt => absurd hlt (not_lt.mpr hj), le_rfl⟩

/-- A successful insertion below an empty place builds nodes down to the item. -/
theorem insertFrom_builds {node offset : ℕ} (hfresh : FreshFrom answers k [node])
    {r : ℤ × RadixTree × ℕ}
    (hr : insertFrom words t index item answers k node offset 0 h = some r) (hok : r.1 = 0) :
    ∃ p l, Filled t item answers k node offset (slotOffset index) h p l r := by
  induction h generalizing t k node offset with
  | zero => exact ⟨item, [], filled_item hr⟩
  | succ h ih =>
    rw [insertFrom, if_pos rfl] at hr
    cases hk : answers k with
    | none =>
      rw [hk] at hr
      dsimp only at hr
      rw [Option.some.injEq] at hr
      rw [← hr] at hok
      exact absurd hok (show ¬enomem = 0 by decide)
    | some a =>
      obtain ⟨ha0, haeven, hanew⟩ := hfresh.fresh k a le_rfl hk
      have hne : node ≠ a := fun he => hanew (he ▸ List.mem_cons_self)
      rw [hk] at hr
      dsimp only at hr
      generalize hL : (if node ≠ 0 then
          setCount (setSlot (setNode t a { zeroedNode with height := h + 1 }) node offset a) node
            (((setSlot (setNode t a { zeroedNode with height := h + 1 }) node offset a).nodes
              node).count + 1)
        else { setNode t a { zeroedNode with height := h + 1 } with rnode := ptrToIndirect a }) =
          linked at hr
      have hslot : (linked.nodes a).slots (slotOffset index h) = 0 := by
        rw [(linked_root hne offset hL).1]
        rfl
      by_cases hinside : slotOffset index h < words
      · rw [if_pos hinside, hslot] at hr
        obtain ⟨p, l, hfilled⟩ := ih (hfresh.next hk) hr
        exact ⟨a, a :: l, hfilled.linked hne ha0 haeven hfresh hk hL⟩
      · rw [if_neg hinside] at hr
        cases hr

/-- Offsets are zero or one behind the last slot. -/
theorem slotOffset_cases (index below : ℕ) :
    slotOffset index below < mapSize ∨ slotOffset index below = mapSize := by
  rw [slotOffset_eq]
  cases index.testBit (mapShift * (below + 1)) with
  | false => exact .inl (by rw [Bool.toNat_false, Nat.zero_mul]; exact mapSize_pos)
  | true => exact .inr (by rw [Bool.toNat_true, Nat.one_mul])

/-- Every offset is within the words that the program uses. -/
theorem slotOffset_behind (index below : ℕ) : slotOffset index below < mapSize + 1 := by
  rcases slotOffset_cases index below with hlt | heq <;> omega

/-- An offset inside a node is its first one. -/
theorem slotOffset_inside {below : ℕ} (hb : slotOffset index below < mapSize) :
    slotOffset index below = 0 := by
  rw [slotOffset_eq] at hb ⊢
  cases hbit : index.testBit (mapShift * (below + 1)) with
  | false => rw [Bool.toNat_false, Nat.zero_mul]
  | true =>
    rw [hbit, Bool.toNat_true] at hb
    exact absurd hb (by decide)

/-- The digits of an index that stay inside their nodes are those of the map. -/
theorem lowDigits_of_inside (hh : index ≤ radixTreeMaxindex h)
    (hinside : ∀ below < h, slotOffset index below < mapSize) : LowDigits index := by
  intro j h1 h5
  by_cases hj : j ≤ h
  · have hlt := hinside (j - 1) (by omega)
    rw [slotOffset_eq, Nat.sub_add_cancel h1] at hlt
    cases hbit : index.testBit (mapShift * j) with
    | false => rfl
    | true =>
      rw [hbit, Bool.toNat_true] at hlt
      exact absurd hlt (by decide)
  · refine Nat.testBit_lt_two_pow (hh.trans_lt ?_)
    have hall : ∀ j ≤ 5, ∀ h < j, radixTreeMaxindex h < 2 ^ (mapShift * j) := by decide
    exact hall j h5 h (by omega)

/-- The program's insertion returns. -/
theorem insertFrom_returns (t : RadixTree) (index item : ℕ) (answers : ℕ → Option ℕ)
    (k node offset slot h : ℕ) :
    ∃ r, insertFrom (mapSize + 1) t index item answers k node offset slot h = some r := by
  induction h generalizing t k node offset slot with
  | zero =>
    rw [insertFrom]
    split_ifs <;> exact ⟨_, rfl⟩
  | succ h ih =>
    rw [insertFrom]
    by_cases hslot : slot = 0
    · rw [if_pos hslot]
      cases answers k with
      | none => exact ⟨_, rfl⟩
      | some a =>
        dsimp only
        rw [if_pos (slotOffset_behind index h)]
        exact ih _ _ _ _ _
    · rw [if_neg hslot, if_pos (slotOffset_behind index h)]
      exact ih _ _ _ _ _

/-- An insertion that goes behind the slots of a node that leads to an item counts a child that is in
none of them. -/
theorem insertFrom_miscounts (hb : Built t.nodes firstSlots h p x l) (hx : x ≠ 0) {node offset : ℕ}
    (hfresh : FreshFrom answers k l) {r : ℤ × RadixTree × ℕ}
    (hr : insertFrom (mapSize + 1) t index item answers k node offset p h = some r) (hok : r.1 = 0)
    (hbehind : ¬∀ below < h, slotOffset index below < mapSize) :
    r.2.1.rnode = t.rnode ∧ r.2.1.height = t.height ∧
      (∀ b ∉ l, (∀ j, k ≤ j → answers j ≠ some b) → r.2.1.nodes b = t.nodes b) ∧
      (Reachable r.2.1 h p → Miscounted r.2.1) := by
  induction hb generalizing node offset with
  | leaf x => exact absurd (fun below hb => absurd hb (Nat.not_lt_zero below)) hbehind
  | node h p next x l nonzero even fresh content below ih =>
    rw [insertFrom, if_neg nonzero, if_pos (slotOffset_behind index h)] at hr
    have hp : ∀ j, k ≤ j → answers j ≠ some p := fun j hj => hfresh.not_head hj
    rcases slotOffset_cases index h with hinside | hmap
    · have hslot : (t.nodes p).slots (slotOffset index h) = next := by
        rw [slotOffset_inside hinside]
        exact Built.slot content
      rw [hslot] at hr
      obtain ⟨hrnode, hheight, hframe, hmiscounted⟩ := ih hx
        (hfresh.sub fun a ha => List.mem_cons_of_mem _ ha) hr fun hall =>
        hbehind fun b hb => (Nat.lt_succ_iff_lt_or_eq.mp hb).elim (hall b) fun he => he ▸ hinside
      refine ⟨hrnode, hheight, fun b hb hn => hframe b (List.not_mem_of_not_mem_cons hb) hn,
        fun hreach => hmiscounted ?_⟩
      refine reachable_next ((hframe p fresh hp).trans content) hreach mapSize_pos
        (below.ne_zero hx) fun hz => ?_
      subst hz
      exact hbehind fun b hb => (Nat.lt_one_iff.mp hb) ▸ hinside
    · have hslot : (t.nodes p).slots (slotOffset index h) = 0 := by
        rw [hmap]
        exact Built.behind content
      rw [hslot, hmap] at hr
      obtain ⟨q, m, hfilled⟩ := insertFrom_builds
        (hfresh.sub fun a ha => List.mem_singleton.mp ha ▸ List.mem_cons_self) hr hok
      refine ⟨hfilled.rnode nonzero, hfilled.height, fun b hb hn => ?_, fun hreach =>
        ⟨h + 1, p, hreach, ?_⟩⟩
      · refine hfilled.frame b (List.ne_of_not_mem_cons hb) fun hm => ?_
        obtain ⟨j, hj, -, hsome⟩ := hfilled.fresh b hm
        exact hn j hj hsome
      · have hafter := hfilled.above nonzero
        have hone : boundSlots (r.2.1.nodes p) = 1 := by
          rw [boundSlots_behind (m := t.nodes p) (v := q) (by rw [hafter])]
          exact boundSlots_one (by rw [content]; rfl) (below.ne_zero hx)
        rw [hone, hafter, content]
        exact (by decide : (2 : ℕ) ≠ 1)

/-- What a run keeps as long as no node is dropped: no node was allocated, or those that were lead to
the one item bound. -/
inductive Settled (w : RadixWorld) : Prop
  /-- No node was allocated. -/
  | root (height : w.tree.height = 0) (used : w.used = []) : Settled w
  /-- The nodes lead to the item. -/
  | nodes (p x : ℕ) (l : List ℕ) (high : w.tree.height ≠ 0)
      (rnode : w.tree.rnode = ptrToIndirect p)
      (built : Built w.tree.nodes firstSlots w.tree.height p x l)
      (item : x ≠ 0) (used : ∀ a, a ∈ w.used ↔ a ∈ l) (bound : ∃ i, w.map i ≠ none) : Settled w

variable {w : NodeWorld}

/-- The root of a tree with nodes. -/
theorem built_root (hh : h ≠ 0) (hb : Built nodes firstSlots h p x l) (hr : t.rnode = ptrToIndirect p) :
    indirectToPtr t.rnode = p ∧ p ∈ l ∧ ∃ next, (nodes p).slots 0 = next ∧ (nodes p).count = 1 ∧
      (x ≠ 0 → next ≠ 0) := by
  cases hb with
  | leaf _ => exact absurd rfl hh
  | node h p next x l nonzero even fresh content below =>
    exact ⟨by rw [hr, indirectToPtr_ptrToIndirect even], List.mem_cons_self, next,
      Built.slot content, by rw [content], below.ne_zero⟩

/-- As long as no node is dropped the nodes are sound. -/
theorem settled_sound (hinv : WorldInv w.world) (hs : Settled w.world)
    (hdeleted : w.deleted = true → w.world.tree.height = 0) : NodesSound w := by
  have hempty : (∀ k, w.world.map k = none) → ∀ x, Holds w.world.map x w.world.tree.height → x = 0 := by
    intro hnone x hholds
    rcases hholds with ⟨hx, -⟩ | ⟨-, i, -, hmap⟩
    · exact hx
    · have hi := hnone i
      rw [hmap, Function.update_self] at hi
      cases hi
  cases hs with
  | root height used =>
    have hnone : ∀ level a, ¬Reachable w.world.tree level a := by
      intro level a ha
      induction ha with
      | root high linked => exact high height
      | child above slot linked ih => exact ih
    refine ⟨fun level a ha => absurd ha (hnone level a), fun a ha => ?_, fun hmap => ?_,
      fun _ high => absurd height high⟩
    · rw [used] at ha
      cases ha
    · obtain ⟨x, l, htree, -, hholds⟩ := hinv
      refine ⟨?_, height, used⟩
      rw [htree.root height, hempty hmap x hholds]
  | nodes p x l high rnode built item used bound =>
    obtain ⟨hroot, hmem, next, hslot, hcount, hnext⟩ := built_root high built rnode
    have hreach : Reachable w.world.tree w.world.tree.height p := by
      have h := Reachable.root (t := w.world.tree) high (by
        rw [rnode]
        exact ptrToIndirect_ne_zero p)
      rwa [hroot] at h
    refine ⟨fun level a ha => ?_, fun a ha => ?_, fun hmap => ?_, fun hd => absurd (hdeleted hd) high⟩
    · obtain ⟨m, hm, hlevel⟩ := built_reachable (hroot.symm ▸ built) ha
      cases hm with
      | leaf _ => exact absurd rfl hlevel
      | node h a next x m nonzero even fresh content below =>
        rw [boundSlots_one (by rw [content]; rfl) (below.ne_zero item), content]
        exact ⟨rfl, le_rfl, rfl⟩
    · exact reachable_built built item (fun _ => hreach) a ((used a).mp ha)
    · obtain ⟨i, hi⟩ := bound
      exact absurd (hmap i) hi

/-- Extending a tree puts nodes of one child each on top of those that lead to the item. -/
theorem extendLoop_built (n : ℕ)
    (hb : Built t.nodes firstSlots t.height (indirectToPtr t.rnode) x l)
    (htags : ∀ tag, t.rootTags tag = false) (hfresh : FreshFrom answers k l)
    (hok : (extendLoop t answers k n).1 = 0) :
    ∃ l', Built (extendLoop t answers k n).2.1.nodes firstSlots (extendLoop t answers k n).2.1.height
        (indirectToPtr (extendLoop t answers k n).2.1.rnode) x l' ∧
      FreshFrom answers (extendLoop t answers k n).2.2 l' ∧
      (extendLoop t answers k n).2.1.height = t.height + n := by
  induction n generalizing t l k with
  | zero => exact ⟨l, hb, hfresh, rfl⟩
  | succ n ih =>
    rw [extendLoop] at hok ⊢
    cases hk : answers k with
    | none =>
      rw [hk] at hok
      exact absurd hok (show ¬enomem = 0 by decide)
    | some a =>
      obtain ⟨ha0, haeven, hanew⟩ := hfresh.fresh k a le_rfl hk
      rw [hk] at hok
      dsimp only at hok ⊢
      generalize hg : ({ setNode t a
        { height := t.height + 1
          count := 1
          slots := Function.update zeroedNode.slots 0 (indirectToPtr t.rnode)
          tags := fun tag offset => t.rootTags tag && decide (tag < maxTags ∧ offset = 0) } with
        rnode := ptrToIndirect a
        height := t.height + 1 } : RadixTree) = g at hok ⊢
      have hroot : g.rnode = ptrToIndirect a ∧ g.height = t.height + 1 ∧
          g.rootTags = t.rootTags := by
        rw [← hg]
        exact ⟨rfl, rfl, rfl⟩
      have hbuilt : Built g.nodes firstSlots g.height (indirectToPtr g.rnode) x (a :: l) := by
        rw [hroot.1, hroot.2.1, indirectToPtr_ptrToIndirect haeven]
        refine .node t.height a (indirectToPtr t.rnode) x l ha0 haeven hanew ?_
          (hb.congr fun b hb => ?_)
        · rw [← hg]
          refine (setNode_self _ _ _).trans ?_
          simp only [htags, Bool.false_and]
          rfl
        · rw [← hg]
          exact setNode_other _ _ fun he => hanew (he ▸ hb)
      obtain ⟨l', hbuilt', hfresh', hheight⟩ := ih hbuilt (by rw [hroot.2.2]; exact htags)
        (hfresh.push hk) hok
      exact ⟨l', hbuilt', hfresh', by rw [hheight, hroot.2.1]; omega⟩

/-- A successful insertion that goes behind the slots of a node leaves one miscounted. -/
theorem insertBelow_miscounts (hb : Built t.nodes firstSlots t.height (indirectToPtr t.rnode) x l)
    (hx : x ≠ 0) (hroot : t.rnode ≠ 0) (hfresh : FreshFrom answers k l)
    (hhigh : index ≤ radixTreeMaxindex t.height) (hlow : ¬LowDigits index) {r : ℤ × RadixTree × ℕ}
    (hr : insertFrom (mapSize + 1) t index item answers k 0 0 (indirectToPtr t.rnode) t.height =
      some r) (hok : r.1 = 0) : Miscounted r.2.1 := by
  obtain ⟨hrnode, hheight, -, hmiscounted⟩ := insertFrom_miscounts hb hx hfresh hr hok
    fun hinside => hlow (lowDigits_of_inside hhigh hinside)
  refine hmiscounted ?_
  have hh : t.height ≠ 0 := fun hz =>
    hlow (lowDigits_of_inside hhigh fun b hb => absurd hb (by rw [hz]; exact Nat.not_lt_zero b))
  have hreach := Reachable.root (t := r.2.1) (hheight.symm ▸ hh) (hrnode.symm ▸ hroot)
  rwa [hheight, hrnode] at hreach

/-- The first insertion into an empty tree that is extended builds the whole path. -/
theorem insertEmpty_builds {H : ℕ} (hH : H ≠ 0) (hheight : t.height = H)
    (hfresh : FreshFrom answers 0 []) {r : ℤ × RadixTree × ℕ}
    (hr : insertFrom words t index item answers 0 0 0 0 H = some r) (hok : r.1 = 0) :
    ∃ p l, Built r.2.1.nodes (slotOffset index) H p item l ∧ r.2.1.rnode = ptrToIndirect p ∧
      r.2.1.height = H ∧ ∀ a, a ∈ l ↔ ∃ j < r.2.2, answers j = some a := by
  have hnew : FreshFrom answers 0 [0] :=
    { fresh := fun j a hj ha => by
        obtain ⟨ha0, haeven, -⟩ := hfresh.fresh j a hj ha
        exact ⟨ha0, haeven, fun hm => ha0 (List.mem_singleton.mp hm)⟩
      once := hfresh.once }
  obtain ⟨p, l, hfilled⟩ := insertFrom_builds hnew hr hok
  have hroot := hfilled.root rfl
  rw [if_neg hH] at hroot
  refine ⟨p, l, hfilled.built, hroot, hfilled.height.trans hheight, fun a => ⟨fun ha => ?_, ?_⟩⟩
  · obtain ⟨j, -, hj, hsome⟩ := hfilled.fresh a ha
    exact ⟨j, hj, hsome⟩
  · rintro ⟨j, hj, hsome⟩
    exact hfilled.tried j a (Nat.zero_le j) hj hsome

/-- The program's insertion returns. -/
theorem radixTreeInsert_returns (t : RadixTree) (index item : ℕ) (answers : ℕ → Option ℕ) :
    ∃ r, radixTreeInsert (mapSize + 1) t index item answers = some r := by
  rw [radixTreeInsert]
  generalize (if radixTreeMaxindex t.height < index then radixTreeExtend t index answers
    else (0, t, 0)) = extended
  by_cases he : extended.1 ≠ 0
  · exact ⟨extended, if_pos he⟩
  · rw [if_neg he]
    exact insertFrom_returns _ _ _ _ _ _ _ _ _

/-- An index that is too large is below the largest height. -/
theorem height_succ_le (h : TreeInv t x l) (hindex : index < 2 ^ 32)
    (hhigh : radixTreeMaxindex t.height < index) : t.height + 1 ≤ 6 := by
  have hsix : radixTreeMaxindex 6 = 2 ^ 32 - 1 := by decide
  have hne : t.height ≠ 6 := fun he => by
    rw [he, hsix] at hhigh
    omega
  have := h.height
  omega

/-- A successful insertion into a tree with a root first extends it far enough. -/
theorem radixTreeInsert_extended (h : TreeInv t x l) (hne : t.rnode ≠ 0) (hindex : index < 2 ^ 32)
    (hfresh : FreshFrom answers 0 l) {r : ℤ × RadixTree × ℕ}
    (hr : radixTreeInsert words t index item answers = some r) (hok : r.1 = 0) :
    ∃ n e, extendLoop t answers 0 n = e ∧ e.1 = 0 ∧ e.2.1.rnode ≠ 0 ∧ (∃ l', TreeInv e.2.1 x l') ∧
      index ≤ radixTreeMaxindex e.2.1.height ∧
      insertFrom words e.2.1 index item answers e.2.2 0 0 (indirectToPtr e.2.1.rnode)
        e.2.1.height = some r := by
  rw [radixTreeInsert] at hr
  by_cases hhigh : radixTreeMaxindex t.height < index
  · have hheight := height_succ_le h hindex hhigh
    obtain ⟨h1, h2, h3⟩ := heightFor_spec hindex (n := 6) hheight (by omega)
    rw [if_pos hhigh, radixTreeExtend] at hr
    generalize heightFor index (t.height + 1) 6 = H at h1 h2 h3 hr
    obtain ⟨l', hinv, hroot, -, -, hend⟩ := extendLoop_inv (H - t.height) h hne hfresh (by omega)
    rw [if_neg hne] at hr
    refine ⟨H - t.height, _, rfl, ?_⟩
    generalize extendLoop t answers 0 (H - t.height) = e at hinv hroot hend hr ⊢
    rcases hend with ⟨he, heq, -⟩ | ⟨he, -⟩
    · rw [if_neg (not_not.mpr he)] at hr
      have hHe : e.2.1.height = H := by omega
      exact ⟨he, hroot, ⟨l', hinv⟩, by rwa [hHe], hr⟩
    · rw [if_pos (by rw [he]; decide), Option.some.injEq] at hr
      rw [← hr, he] at hok
      exact absurd hok (show ¬enomem = 0 by decide)
  · rw [if_neg hhigh, if_neg (not_not.mpr rfl)] at hr
    exact ⟨0, _, rfl, rfl, hne, ⟨l, h⟩, not_lt.mp hhigh, hr⟩

/-- An insertion at an index with right digits succeeds only while no item is bound. -/
theorem radixTreeInsert_unbound (h : TreeInv t x l) (hwords : 0 < words) (hlow : LowDigits index)
    (hindex : index < 2 ^ 32) (hfresh : FreshFrom answers 0 l) {r : ℤ × RadixTree × ℕ}
    (hr : radixTreeInsert words t index item answers = some r) (hok : r.1 = 0) : x = 0 := by
  by_contra hx
  obtain ⟨-, e, -, -, -, ⟨l', hinv⟩, -, hinsert⟩ := radixTreeInsert_extended h
    (fun hz => hx (h.null_root hz).1) hindex hfresh hr hok
  rw [insertFrom_full hwords hinv.spine hx hlow hindex hinv.height, Option.some.injEq] at hinsert
  rw [← hinsert] at hok
  exact absurd hok (show ¬eexist = 0 by decide)

/-- A settled tree is empty or leads to an item. -/
theorem Settled.built_or {v : RadixWorld} (htree : TreeInv v.tree x l) (hs : Settled v) :
    (v.tree.rnode = 0 ∧ v.tree.height = 0) ∨ v.tree.rnode ≠ 0 ∧ ∃ y m, y ≠ 0 ∧ (∀ a ∈ m, a ∈ v.used) ∧
      Built v.tree.nodes firstSlots v.tree.height (indirectToPtr v.tree.rnode) y m := by
  cases hs with
  | root height used =>
    by_cases hx : v.tree.rnode = 0
    · exact .inl ⟨hx, height⟩
    · have hroot := htree.root height
      refine .inr ⟨hx, x, [], hroot ▸ hx, fun a ha => (by cases ha), ?_⟩
      rw [height, hroot, indirectToPtr_even htree.even]
      exact .leaf x
  | nodes p y m high rnode built item used bound =>
    obtain ⟨hroot, -⟩ := built_root high built rnode
    refine .inr ⟨?_, y, m, item, fun a ha => (used a).mpr ha, hroot.symm ▸ built⟩
    rw [rnode]
    exact ptrToIndirect_ne_zero p

/-- The insertion into a tree without a root. -/
theorem radixTreeInsert_empty (hrnode : t.rnode = 0) (hheight : t.height = 0) (hindex : index < 2 ^ 32)
    (hzero : index ≠ 0) : ∃ H, H ≠ 0 ∧ H ≤ 6 ∧ index ≤ radixTreeMaxindex H ∧
      radixTreeInsert words t index item answers =
        insertFrom words { t with height := H } index item answers 0 0 0 0 H := by
  have hmax : radixTreeMaxindex 0 < index := by
    rw [show radixTreeMaxindex 0 = 0 from rfl]
    omega
  obtain ⟨h1, h2, h3⟩ := heightFor_spec hindex (h := 0 + 1) (n := 6) (by omega) (by omega)
  refine ⟨heightFor index (0 + 1) 6, by omega, h2, h3, ?_⟩
  rw [radixTreeInsert, hheight, if_pos hmax, radixTreeExtend, hheight, if_pos hrnode]
  dsimp only
  rw [if_neg (not_not.mpr rfl), hrnode, show indirectToPtr 0 = 0 from rfl]

/-- A successful insertion whose index has a digit that the mask lets through leaves a node
miscounted. -/
theorem insert_miscounts {v : RadixWorld} (hinv : WorldInv v) (hs : Settled v)
    (hlegal : Legal v (.insert index item answers)) {r : ℤ × RadixTree × ℕ}
    (hr : radixTreeInsert (mapSize + 1) v.tree index item answers = some r) (hok : r.1 = 0)
    (hlow : ¬LowDigits index) : Miscounted r.2.1 := by
  obtain ⟨hindex, hitem, -, hfresh⟩ := hlegal
  obtain ⟨x, l, htree, hused, -⟩ := hinv
  rcases hs.built_or htree with ⟨hrnode, hheight⟩ | ⟨hne, y, m, hy, hm, hbuilt⟩
  · have hzero : index ≠ 0 := fun hz => hlow fun j _ _ => by rw [hz, Nat.zero_testBit]
    obtain ⟨H, hH, -, hhigh, heq⟩ := @radixTreeInsert_empty _ (mapSize + 1) _ item answers
      hrnode hheight hindex hzero
    rw [heq] at hr
    obtain ⟨p, n, hnodes, hroot, hr', -⟩ := insertEmpty_builds hH rfl (hfresh.sub fun a ha => by
      cases ha) hr hok
    refine hnodes.miscounted hitem (fun _ => ?_) (fun b _ => slotOffset_cases index b)
      fun hinside => hlow (lowDigits_of_inside hhigh hinside)
    have hreach := Reachable.root (t := r.2.1) (hr'.symm ▸ hH) (by
      rw [hroot]
      exact ptrToIndirect_ne_zero p)
    have heven : p % 2 = 0 := by
      cases hnodes with
      | leaf _ => exact absurd rfl hH
      | node h p next x l nonzero even fresh content below => exact even
    rwa [hr', hroot, indirectToPtr_ptrToIndirect heven] at hreach
  · obtain ⟨n, e, he, hok', hroot, -, hhigh, hinsert⟩ := radixTreeInsert_extended htree hne hindex
      (hfresh.sub hused) hr hok
    subst he
    obtain ⟨m', hbuilt', hfresh', -⟩ := extendLoop_built n hbuilt htree.rootTags (hfresh.sub hm) hok'
    exact insertBelow_miscounts hbuilt' hy hroot hfresh' hhigh hlow hinsert hok

/-- A successful insertion at an index with right digits leaves the nodes settled. -/
theorem insert_settled {v : RadixWorld} (hinv : WorldInv v) (hs : Settled v)
    (hlegal : Legal v (.insert index item answers))
    (hsucceeds : Succeeds v (.insert index item answers)) (hlow : LowDigits index) :
    ∃ u, perform (mapSize + 1) v (.insert index item answers) = some u ∧ WorldInv u ∧ Settled u := by
  obtain ⟨r, hr⟩ := radixTreeInsert_returns v.tree index item answers
  have hok := hsucceeds r hr
  obtain ⟨hindex, hitem, heven, hfresh⟩ := id hlegal
  obtain ⟨x, l, htree, hused, hholds⟩ := id hinv
  obtain rfl := radixTreeInsert_unbound htree (Nat.succ_pos _) hlow hindex (hfresh.sub hused) hr hok
  have hempty := hholds.empty
  obtain ⟨⟨q, hact, hanswer⟩, u, hu, hinv'⟩ := perform_step (Nat.succ_pos mapSize) hinv hlegal
    (.inr ⟨hlow, fun k hk => absurd (congrFun hempty k) hk⟩)
  refine ⟨u, hu, hinv', ?_⟩
  rw [perform, hact, Option.map_some, Option.some.injEq] at hu
  rw [act, hr, Option.map_some, Option.some.injEq] at hact
  rw [← hact] at hanswer hu
  have hmap : u.map = Function.update v.map index (some item) := by
    rw [← hu]
    dsimp only at hanswer ⊢
    rw [hempty] at hanswer ⊢
    cases hf : failed (.insert index item answers) r.2.2 with
    | false => rfl
    | true =>
      rw [hf, hok, mapStep] at hanswer
      rw [if_neg (by decide), if_pos rfl, Answer.code.injEq] at hanswer
      exact absurd hanswer (show ¬0 = enomem by decide)
  have hbound : ∃ i, u.map i ≠ none := ⟨index, by
    rw [hmap, Function.update_self]
    exact Option.some_ne_none item⟩
  cases hs with
  | nodes p x l high rnode built item used bound =>
    obtain ⟨i, hi⟩ := bound
    exact absurd (congrFun hempty i) hi
  | root height used =>
    have hrnode := htree.root height
    by_cases hzero : index = 0
    · have hmax : ¬radixTreeMaxindex 0 < index := by
        rw [hzero]
        exact Nat.not_lt_zero _
      rw [radixTreeInsert, height, if_neg hmax, if_neg (not_not.mpr rfl)] at hr
      dsimp only at hr
      rw [height, hrnode, insertFrom, if_neg (not_not.mpr (show indirectToPtr 0 = 0 from rfl)),
        if_neg (not_not.mpr rfl), Option.some.injEq] at hr
      rw [← hu, ← hr]
      refine .root height ?_
      dsimp only
      rw [used]
      rfl
    · obtain ⟨H, hH, hH6, -, heq⟩ := @radixTreeInsert_empty _ (mapSize + 1) _ item answers
        hrnode height hindex hzero
      rw [heq] at hr
      obtain ⟨p, m, hnodes, hroot, hheight, hmem⟩ := insertEmpty_builds hH rfl
        (hfresh.sub fun a ha => by cases ha) hr hok
      rw [← hu] at hbound ⊢
      refine .nodes p item m ?_ hroot ?_ hitem (fun a => ?_) hbound
      · exact hheight.symm ▸ hH
      · dsimp only
        rw [hheight]
        exact hnodes.along fun b hb => (slotOffset_zero hlow hindex b (by omega)).symm
      · dsimp only
        rw [used, List.append_nil, handed, List.mem_filterMap, hmem a]
        simp only [List.mem_range]

/-- A deletion without height leaves the nodes settled. -/
theorem delete_settled {v : RadixWorld} (hinv : WorldInv v) (hs : Settled v)
    (hindex : index < 2 ^ 32) (hzero : v.tree.height = 0) :
    ∃ u, perform (mapSize + 1) v (.delete index) = some u ∧ WorldInv u ∧ Settled u ∧ u.tree.height = 0 := by
  obtain ⟨-, u, hu, hinv'⟩ := @perform_step (mapSize + 1) _ (.delete index) (Nat.succ_pos _) hinv hindex
    (.inl (.inr (.inl hzero)))
  refine ⟨u, hu, hinv', ?_⟩
  have hused : v.used = [] := by
    cases hs with
    | root height used => exact used
    | nodes p x l high rnode built item used bound => exact absurd hzero high
  rw [perform, act, radixTreeDelete, hzero] at hu
  by_cases hhigh : radixTreeMaxindex 0 < index
  · rw [if_pos hhigh, Option.map_some, Option.map_some, Option.some.injEq] at hu
    rw [← hu]
    exact ⟨.root hzero hused, hzero⟩
  · rw [if_neg hhigh, if_pos rfl, Option.map_some, Option.map_some, Option.some.injEq] at hu
    rw [← hu]
    exact ⟨.root rfl hused, rfl⟩

/-- No node is reachable without height. -/
theorem not_reachable (hzero : t.height = 0) {level a : ℕ} : ¬Reachable t level a := by
  intro ha
  induction ha with
  | root high linked => exact high hzero
  | child above slot linked ih => exact ih

/-- A walk that goes behind the slots of a node that leads to an item finds none. -/
theorem walkFrom_behind (hb : Built t.nodes firstSlots h p x l)
    (hbehind : ¬∀ below < h, slotOffset index below < mapSize) (taken : List (ℕ × ℕ)) :
    ∃ taken', walkFrom (mapSize + 1) t index p taken h = some (0, taken') := by
  induction hb generalizing taken with
  | leaf x => exact absurd (fun below hb => absurd hb (Nat.not_lt_zero below)) hbehind
  | node h p next x l nonzero even fresh content below ih =>
    rw [walkFrom, if_neg nonzero]
    dsimp only
    rw [if_pos (slotOffset_behind index h)]
    rcases slotOffset_cases index h with hinside | hmap
    · have hslot : (t.nodes p).slots (slotOffset index h) = next := by
        rw [slotOffset_inside hinside]
        exact Built.slot content
      rw [hslot]
      exact ih (fun hall => hbehind fun b hb =>
        (Nat.lt_succ_iff_lt_or_eq.mp hb).elim (hall b) fun he => he ▸ hinside) _
    · have hslot : (t.nodes p).slots (slotOffset index h) = 0 := by
        rw [hmap]
        exact Built.behind content
      rw [hslot]
      cases h with
      | zero => exact ⟨_, rfl⟩
      | succ h => exact ⟨_, by rw [walkFrom, if_pos rfl]⟩

/-- A deletion that finds nothing leaves the tree. -/
theorem radixTreeDelete_misses (high : t.height ≠ 0)
    (hb : Built t.nodes firstSlots t.height (indirectToPtr t.rnode) x l)
    (hmiss : radixTreeMaxindex t.height < index ∨ ¬LowDigits index) :
    radixTreeDelete (mapSize + 1) t index = some (0, t) := by
  rw [radixTreeDelete]
  by_cases hhigh : radixTreeMaxindex t.height < index
  · exact if_pos hhigh
  · obtain ⟨taken, hwalk⟩ := walkFrom_behind hb (fun hinside => hmiss.resolve_left hhigh
      (lowDigits_of_inside (not_lt.mp hhigh) hinside)) []
    rw [if_neg hhigh, if_neg high, hwalk]
    rfl

/-- A deletion in a tree with height leaves a node too many: the tree stays as it is, or the nodes
are dropped and not given back. -/
theorem delete_unsound {v : RadixWorld} {u : NodeWorld} {d : Bool} (hinv : WorldInv v)
    (hs : Settled v) (hindex : index < 2 ^ 32) (hheight : v.tree.height ≠ 0)
    (hu : performNoted ⟨v, d⟩ (.delete index) = some u) : ¬NodesSound u := by
  intro hsound
  obtain ⟨x, l, htree, -, hholds⟩ := hinv
  cases hs with
  | root height used => exact hheight height
  | nodes p y m high rnode built item used bound =>
    obtain ⟨hroot, hmem, next, hslot, hcount, hnext⟩ := built_root high built rnode
    rw [performNoted, Option.map_eq_some_iff] at hu
    obtain ⟨w, hw, rfl⟩ := hu
    rw [perform, act] at hw
    by_cases hmiss : radixTreeMaxindex v.tree.height < index ∨ ¬LowDigits index
    · rw [radixTreeDelete_misses high (hroot.symm ▸ built) hmiss, Option.map_some, Option.map_some,
        Option.some.injEq] at hw
      rw [← hw] at hsound
      refine hsound.minimal rfl high ⟨?_, ?_⟩
      · dsimp only
        rw [hroot]
        exact hcount
      · dsimp only
        rw [hroot, hslot]
        exact hnext item
    · rw [not_or, not_lt, not_not] at hmiss
      have hx : x ≠ 0 := by
        rintro rfl
        obtain ⟨i, hi⟩ := bound
        exact absurd (congrFun hholds.empty i) hi
      obtain ⟨t', hdelete, hzero, -, -⟩ :=
        radixTreeDelete_drops (Nat.succ_pos mapSize) htree hx hmiss.2 hindex high hmiss.1
      rw [hdelete, Option.map_some, Option.map_some, Option.some.injEq] at hw
      rw [← hw] at hsound
      obtain ⟨level, hreach⟩ := hsound.reachable p ((used p).mpr hmem)
      exact not_reachable hzero hreach

/-- An insertion at an index with a digit that the mask lets through leaves a node miscounted. -/
theorem insert_unsound {v : RadixWorld} {u : NodeWorld} {d : Bool} (hinv : WorldInv v)
    (hs : Settled v) (hlegal : Legal v (.insert index item answers))
    (hsucceeds : Succeeds v (.insert index item answers)) (hlow : ¬LowDigits index)
    (hu : performNoted ⟨v, d⟩ (.insert index item answers) = some u) : ¬NodesSound u := by
  intro hsound
  obtain ⟨r, hr⟩ := radixTreeInsert_returns v.tree index item answers
  obtain ⟨level, a, hreach, hcount⟩ := insert_miscounts hinv hs hlegal hr (hsucceeds r hr) hlow
  rw [performNoted, perform, act, hr, Option.map_some, Option.map_some, Option.map_some,
    Option.some.injEq] at hu
  rw [← hu] at hsound
  exact hcount (hsound.counted level a hreach).1

/-- An empty tree, where nothing was deleted. -/
def noNodes : NodeWorld := ⟨⟨initRadixTree, fun _ => none, []⟩, false⟩

/-- What a run is made of: legal operations whose insertions succeed. What follows a state whose
nodes are not sound may be any. -/
def Successful (w : NodeWorld) (op : RadixOp) : Prop :=
  NodesSound w → Legal w.world op ∧ Succeeds w.world op

/-- In a run of successful insertions and of deletions the nodes are counted, reachable and given
back in every state if and only if each insertion names an index with right digits and each deletion
finds a tree without height. -/
theorem history_givesBack (ops : List RadixOp)
    (hrun : Admissible performNoted Successful noNodes ops) :
    Admissible performNoted KeepsNodes noNodes ops ↔
      ∀ before after, ops = before ++ after →
        ∃ w, exec performNoted noNodes before = some w ∧ NodesSound w := by
  refine @admissible_iff_along _ _ _ _
    (fun w => WorldInv w.world ∧ Settled w.world ∧ (w.deleted = true → w.world.tree.height = 0)) _ _
    (fun w hw => settled_sound hw.1 hw.2.1 hw.2.2) ?_ ?_ _ _
    ⟨initRadixTree_inv, .root rfl rfl, fun hd => by cases hd⟩ hrun
  · rintro w op ⟨hinv, hs, hdeleted⟩ hsuccessful hmeets
    obtain ⟨hlegal, hsucceeds⟩ := hsuccessful (settled_sound hinv hs hdeleted)
    cases op with
    | insert index item answers =>
      obtain ⟨u, hu, hinv', hs'⟩ := insert_settled hinv hs hlegal hsucceeds hmeets
      exact ⟨⟨u, false⟩, by rw [performNoted, hu]; rfl, hinv', hs', fun hd => by cases hd⟩
    | delete index =>
      obtain ⟨u, hu, hinv', hs', hzero⟩ := delete_settled hinv hs hlegal hmeets
      exact ⟨⟨u, true⟩, by rw [performNoted, hu]; rfl, hinv', hs', fun _ => hzero⟩
  · rintro w op u ⟨hinv, hs, hdeleted⟩ hsuccessful hmeets hu
    obtain ⟨hlegal, hsucceeds⟩ := hsuccessful (settled_sound hinv hs hdeleted)
    cases op with
    | insert index item answers => exact insert_unsound hinv hs hlegal hsucceeds hmeets hu
    | delete index => exact delete_unsound hinv hs hlegal hmeets hu

/-- Index zero is bound in the root and deleted, then index one is bound with a node. -/
def zeroThenOne : List RadixOp := [.insert 0 8 (oneNode 4096), .delete 0, bindOne]

/-- Every state of the run has sound nodes, and in the last one a node is reachable. -/
theorem history_givesBack_zeroThenOne :
    (∀ before after, zeroThenOne = before ++ after →
      ∃ w, exec performNoted noNodes before = some w ∧ NodesSound w) ∧
    ∃ w, exec performNoted noNodes zeroThenOne = some w ∧ Reachable w.world.tree 1 4096 ∧
      w.world.used = [4096] := by
  have hfresh : FreshFrom (oneNode 4096) 0 [] :=
    oneNode_fresh (by decide) (by decide) List.not_mem_nil
  have hlow : LowDigits 0 := fun j _ _ => Nat.zero_testBit _
  have hone : LowDigits 1 := by
    intro j h1 h2
    have hall : ∀ j ≤ 5, 1 ≤ j → Nat.testBit 1 (mapShift * j) = false := by decide
    exact hall j h2 h1
  refine ⟨(history_givesBack zeroThenOne ⟨fun _ => ⟨⟨by decide, by decide, by decide, hfresh⟩,
    fun r hr => ?_⟩, fun t ht => ⟨?_, fun u hu => ⟨fun _ => ⟨⟨by decide, by decide, by decide, ?_⟩,
      fun r hr => ?_⟩, fun _ _ => trivial⟩⟩⟩).mp ⟨hlow, fun t ht => ⟨?_, fun _ _ =>
        ⟨hone, fun _ _ => trivial⟩⟩⟩, _, rfl, ?_, rfl⟩
  · obtain rfl := Option.some.inj hr
    rfl
  · exact fun _ => ⟨show 0 < 2 ^ 32 by decide, trivial⟩
  · obtain rfl := Option.some.inj ht
    obtain rfl := Option.some.inj hu
    exact hfresh
  · obtain rfl := Option.some.inj ht
    obtain rfl := Option.some.inj hu
    obtain rfl := Option.some.inj hr
    rfl
  · obtain rfl := Option.some.inj ht
    rfl
  · exact Reachable.root (by decide) (by decide)

/-- An allocator that returns two nodes and then fails. -/
def twoNodes (k : ℕ) : Option ℕ := if k = 0 then some 4096 else if k = 1 then some 8192 else none

/-- Two new nodes are no nodes in use. -/
theorem twoNodes_fresh : FreshFrom twoNodes 0 [] where
  fresh j b _ hb := by
    rw [twoNodes] at hb
    split_ifs at hb <;> obtain rfl := Option.some.inj hb <;> decide
  once i j b _ _ hi hj := by
    rw [twoNodes] at hi hj
    split_ifs at hi hj <;> simp only [Option.some.injEq] at hi hj <;> omega

/-- The empty tree after index 64 is bound. -/
def behindBound : NodeWorld := (performNoted noNodes (.insert 64 8 twoNodes)).getD noNodes

/-- The lowest of its nodes is reachable. -/
theorem behindBound_reachable : Reachable behindBound.world.tree 1 8192 := by
  have hroot : Reachable behindBound.world.tree 2 4096 :=
    @Reachable.root behindBound.world.tree (by decide) (by decide)
  exact @Reachable.child behindBound.world.tree 0 4096 0 hroot (by decide) (by decide)

/-- Index one is bound and deleted, and its node is neither reachable nor given back. Index 64 is
bound, and its lowest node counts a child that none of its slots has. -/
theorem dropped_counterexample :
    (Admissible performNoted (fun w op => Legal w.world op ∧ Succeeds w.world op) noNodes
        [bindOne, .delete 1] ∧
      ∃ w, exec performNoted noNodes [bindOne, .delete 1] = some w ∧ (∀ k, w.world.map k = none) ∧
        w.world.tree.rnode = 0 ∧ w.world.tree.height = 0 ∧ w.world.used = [4096] ∧
        ¬NodesSound w) ∧
    Admissible performNoted (fun w op => Legal w.world op ∧ Succeeds w.world op) noNodes
        [.insert 64 8 twoNodes] ∧
      ∃ w, exec performNoted noNodes [.insert 64 8 twoNodes] = some w ∧
        Reachable w.world.tree 1 8192 ∧ (w.world.tree.nodes 8192).count = 1 ∧
        boundSlots (w.world.tree.nodes 8192) = 0 ∧ ¬NodesSound w := by
  constructor
  · refine ⟨⟨⟨bindOne_legal, fun r hr => ?_⟩, fun t ht => ?_⟩, _, rfl, fun k => ?_, rfl, rfl, rfl,
      fun h => ?_⟩
    · obtain rfl := Option.some.inj hr
      rfl
    · obtain rfl := Option.some.inj ht
      exact ⟨⟨show 1 < 2 ^ 32 by decide, trivial⟩, fun _ _ => trivial⟩
    · have hmap : Function.update (Function.update (fun _ => none) 1 (some 8)) 1 none =
          fun _ : ℕ => (none : Option ℕ) := by
        rw [Function.update_idem]
        exact Function.update_eq_self 1 fun _ => none
      exact congrFun hmap k
    · obtain ⟨level, hreach⟩ := h.reachable 4096 List.mem_cons_self
      exact not_reachable rfl hreach
  · refine ⟨⟨⟨⟨by decide, by decide, by decide, twoNodes_fresh⟩, fun r hr => ?_⟩,
      fun _ _ => trivial⟩, behindBound, rfl, behindBound_reachable, rfl, by decide, fun h => ?_⟩
    · obtain rfl := Option.some.inj hr
      rfl
    · exact absurd (h.counted 1 8192 behindBound_reachable).1 (by decide)

end BiscuitOS.RadixNodes
