import BiscuitOS.TransitionRun
import BiscuitOS.RadixSpine

/-!
# Radix trees as maps

A run inserts and deletes items, with allocations of nodes that may fail at
any point. Its results are those of a finite map as long as an operation that
computes an offset names an index whose masked digits are zero while no other
index is bound.
-/

namespace BiscuitOS.RadixHistory

open MachineWord TransitionRun RadixModel RadixSpine

/-- What users of a tree do. -/
inductive RadixOp
  /-- `radix_tree_insert`, with the answers to its allocations of nodes. -/
  | insert (index item : ℕ) (answers : ℕ → Option ℕ)
  /-- `radix_tree_delete`. -/
  | delete (index : ℕ)

/-- What an operation returns. -/
inductive Answer
  /-- The error of an insertion. -/
  | code (error : ℤ)
  /-- The item of a deletion, zero for none. -/
  | item (x : ℕ)
  deriving DecidableEq

/-- A tree, the map it stands for and the nodes allocated so far. -/
structure RadixWorld where
  /-- The tree. -/
  tree : RadixTree
  /-- The items bound to the indices, by the definition of a map. -/
  map : ℕ → Option ℕ
  /-- Addresses of nodes. -/
  used : List ℕ

/-- The operation of the code with `words` words from the first slot of a node on: its answer, the
tree and the number of allocations tried. -/
def act (words : ℕ) (t : RadixTree) : RadixOp → Option (Answer × RadixTree × ℕ)
  | .insert index item answers =>
    (radixTreeInsert words t index item answers).map fun r => (.code r.1, r.2.1, r.2.2)
  | .delete index => (radixTreeDelete words t index).map fun r => (.item r.1, r.2, 0)

/-- One of the allocations tried failed. -/
def failed : RadixOp → ℕ → Bool
  | .insert _ _ answers, tried => (List.range tried).any fun j : ℕ => (answers j).isNone
  | .delete _, _ => false

/-- The nodes returned by the allocations tried. -/
def handed : RadixOp → ℕ → List ℕ
  | .insert _ _ answers, tried => (List.range tried).filterMap answers
  | .delete _, _ => []

/-- The operation of a map, given whether an allocation failed: its answer and the map. -/
def mapStep (map : ℕ → Option ℕ) (op : RadixOp) (failed : Bool) : Answer × (ℕ → Option ℕ) :=
  match op with
  | .insert index item _ =>
    if (map index).isSome then (.code eexist, map)
    else if failed then (.code enomem, map)
    else (.code 0, Function.update map index (some item))
  | .delete index => (.item ((map index).getD 0), Function.update map index none)

/-- Perform an operation on the tree and on the map. -/
def perform (words : ℕ) (w : RadixWorld) (op : RadixOp) : Option RadixWorld :=
  (act words w.tree op).map fun r =>
    ⟨r.2.1, (mapStep w.map op (failed op r.2.2)).2, handed op r.2.2 ++ w.used⟩

/-- What callers and the allocator promise: items that are not `NULL` and even, indices of 32 bits,
and nodes at even addresses that are not in use. -/
def Legal (w : RadixWorld) : RadixOp → Prop
  | .insert index item answers => index < 2 ^ 32 ∧ item ≠ 0 ∧ item % 2 = 0 ∧ FreshFrom answers 0 w.used
  | .delete index => index < 2 ^ 32

/-- The operation computes no offset: an insertion that fails to extend the tree or to allocate
its root, a deletion behind the largest index, at height zero or in a tree without nodes. -/
def NoOffset (t : RadixTree) : RadixOp → Prop
  | .insert index _ answers =>
    (t.rnode ≠ 0 ∧ radixTreeMaxindex t.height < index ∧
      ∃ j < heightFor index (t.height + 1) 6 - t.height, answers j = none) ∨
    (t.rnode = 0 ∧ answers 0 = none)
  | .delete index => radixTreeMaxindex t.height < index ∨ t.height = 0 ∨ t.rnode = 0

/-- The index of an operation. -/
def RadixOp.index : RadixOp → ℕ
  | .insert index _ _ => index
  | .delete index => index

/-- The operation computes no offset, or the digits of its index that the mask lets through are
zero and no other index is bound. -/
def OffsetsRight (w : RadixWorld) (op : RadixOp) : Prop :=
  NoOffset w.tree op ∨ LowDigits op.index ∧ ∀ k, w.map k ≠ none → k = op.index

/-- The tree with the item at the end of its spine. -/
structure TreeInv (t : RadixTree) (x : ℕ) (l : List ℕ) : Prop where
  /-- The nodes form a spine. -/
  spine : Spine t.nodes t.height (indirectToPtr t.rnode) x l
  /-- Without height the root is the item. -/
  root : t.height = 0 → t.rnode = x
  /-- A root without a node is `NULL`. -/
  null : indirectToPtr t.rnode = 0 → t.rnode = 0
  /-- No tag is set. -/
  rootTags : ∀ tag, t.rootTags tag = false
  /-- The height covers at most the 32 bits of an index. -/
  height : t.height ≤ 6
  /-- Items are even. -/
  even : x % 2 = 0

/-- The map has at most the item at the end of the spine. -/
def Holds (map : ℕ → Option ℕ) (x height : ℕ) : Prop :=
  (x = 0 ∧ map = fun _ => none) ∨
    x ≠ 0 ∧ ∃ i ≤ radixTreeMaxindex height, map = Function.update (fun _ => none) i (some x)

variable {t : RadixTree} {words x index item : ℕ} {l : List ℕ} {map : ℕ → Option ℕ}
  {answers : ℕ → Option ℕ} {k : ℕ}

/-- Higher trees hold larger indices. -/
theorem maxindex_mono {a b : ℕ} (hab : a ≤ b) (hb : b ≤ 6) :
    radixTreeMaxindex a ≤ radixTreeMaxindex b := by
  have hall : ∀ b ≤ 6, ∀ a ≤ b, radixTreeMaxindex a ≤ radixTreeMaxindex b := by decide
  exact hall b hb a hab

/-- The height aimed at holds the index. -/
theorem heightFor_spec (hindex : index < 2 ^ 32) {h n : ℕ} (hh : h ≤ 6) (hn : 6 ≤ h + n) :
    h ≤ heightFor index h n ∧ heightFor index h n ≤ 6 ∧
      index ≤ radixTreeMaxindex (heightFor index h n) := by
  have hsix : radixTreeMaxindex 6 = 2 ^ 32 - 1 := by decide
  induction n generalizing h with
  | zero =>
    have he : h = 6 := by omega
    rw [heightFor, he, hsix]
    exact ⟨le_rfl, le_rfl, by omega⟩
  | succ n ih =>
    rw [heightFor]
    split
    · rename_i hlt
      have hne : h ≠ 6 := by
        rintro rfl
        rw [hsix] at hlt
        omega
      obtain ⟨h1, h2, h3⟩ := ih (h := h + 1) (by omega) (by omega)
      exact ⟨by omega, h2, h3⟩
    · exact ⟨le_rfl, hh, by omega⟩

/-- An index that is too large is not bound. -/
theorem Holds.unbound {height : ℕ} (h : Holds map x height)
    (hindex : radixTreeMaxindex height < index) : map index = none := by
  rcases h with ⟨-, rfl⟩ | ⟨-, i, hi, rfl⟩
  · rfl
  · exact Function.update_of_ne (by omega) _ _

/-- A higher tree holds the same map. -/
theorem Holds.mono {a b : ℕ} (h : Holds map x a) (hab : a ≤ b) (hb : b ≤ 6) : Holds map x b :=
  h.imp_right fun ⟨hx, i, hi, hm⟩ => ⟨hx, i, hi.trans (maxindex_mono hab hb), hm⟩

/-- Without an item the map is empty. -/
theorem Holds.empty {height : ℕ} (h : Holds map 0 height) : map = fun _ => none :=
  h.elim And.right fun hx => absurd rfl hx.1

/-- An insertion that ended: the item is stored or an allocation failed. -/
def Outcome (answers : ℕ → Option ℕ) (k item x : ℕ) (r : ℤ × RadixTree × ℕ) : Prop :=
  r.1 = 0 ∧ x = item ∧ (∀ j, k ≤ j → j < r.2.2 → answers j ≠ none) ∨
    r.1 = enomem ∧ x = 0 ∧ ∃ j, k ≤ j ∧ j < r.2.2 ∧ answers j = none

/-- The nodes of a spine that grew were there before or allocated. -/
def Added (answers : ℕ → Option ℕ) (k n : ℕ) (l l' : List ℕ) : Prop :=
  ∀ a ∈ l', a ∈ l ∨ ∃ j, k ≤ j ∧ j < n ∧ answers j = some a

/-- Extending the tree puts nodes on top of the spine until an allocation fails. -/
theorem extendLoop_inv (n : ℕ) (h : TreeInv t x l) (hne : t.rnode ≠ 0)
    (hfresh : FreshFrom answers k l) (hn : t.height + n ≤ 6) :
    ∃ l', TreeInv (extendLoop t answers k n).2.1 x l' ∧
      (extendLoop t answers k n).2.1.rnode ≠ 0 ∧
      t.height ≤ (extendLoop t answers k n).2.1.height ∧
      Added answers k (extendLoop t answers k n).2.2 l l' ∧
      ((extendLoop t answers k n).1 = 0 ∧ (extendLoop t answers k n).2.1.height = t.height + n ∧
          (extendLoop t answers k n).2.2 = k + n ∧
          (∀ j, k ≤ j → j < k + n → answers j ≠ none) ∧ FreshFrom answers (k + n) l' ∨
        (extendLoop t answers k n).1 = enomem ∧ k < (extendLoop t answers k n).2.2 ∧
          ∃ j, k ≤ j ∧ j < (extendLoop t answers k n).2.2 ∧ answers j = none) := by
  induction n generalizing t l k with
  | zero =>
    exact ⟨l, h, hne, le_rfl, fun a ha => Or.inl ha,
      Or.inl ⟨rfl, rfl, rfl, fun j h1 h2 => absurd h2 (by omega), hfresh⟩⟩
  | succ n ih =>
    rw [extendLoop]
    cases hk : answers k with
    | none =>
      exact ⟨l, h, hne, le_rfl, fun a ha => Or.inl ha,
        Or.inr ⟨rfl, Nat.lt_succ_self k, k, le_rfl, Nat.lt_succ_self k, hk⟩⟩
    | some a =>
      obtain ⟨ha0, haeven, hanew⟩ := hfresh.fresh k a le_rfl hk
      have hslot : indirectToPtr t.rnode ≠ 0 := fun hz => hne (h.null hz)
      generalize hg : ({ setNode t a
        { height := t.height + 1
          count := 1
          slots := Function.update zeroedNode.slots 0 (indirectToPtr t.rnode)
          tags := fun tag offset => t.rootTags tag && decide (tag < maxTags ∧ offset = 0) } with
        rnode := ptrToIndirect a
        height := t.height + 1 } : RadixTree) = g
      have hnodes : g.nodes a =
          { height := t.height + 1
            count := 1
            slots := Function.update zeroedNode.slots 0 (indirectToPtr t.rnode)
            tags := fun tag offset => t.rootTags tag && decide (tag < maxTags ∧ offset = 0) } := by
        rw [← hg]
        exact setNode_self _ _ _
      have hothers : ∀ b ∈ l, g.nodes b = t.nodes b := fun b hb => by
        rw [← hg]
        exact setNode_other _ _ fun he => hanew (he ▸ hb)
      have hroot : g.rnode = ptrToIndirect a ∧ g.height = t.height + 1 ∧
          g.rootTags = t.rootTags := by
        rw [← hg]
        exact ⟨rfl, rfl, rfl⟩
      have hinv : TreeInv g x (a :: l) :=
        { spine := by
            rw [hroot.1, hroot.2.1, indirectToPtr_ptrToIndirect haeven]
            refine .node t.height a x l ha0 haeven hanew ?_ ?_ ?_
            · rw [hnodes]
              simp only [Function.update_self, hslot, if_false]
            · rw [hnodes]
              intro tag offset
              dsimp only
              rw [h.rootTags, Bool.false_and]
            · rw [hnodes]
              dsimp only
              rw [Function.update_self]
              exact h.spine.congr hothers
          root := fun hz => absurd (hroot.2.1 ▸ hz) (Nat.succ_ne_zero _)
          null := fun hz => by
            rw [hroot.1, indirectToPtr_ptrToIndirect haeven] at hz
            exact absurd hz ha0
          rootTags := by
            rw [hroot.2.2]
            exact h.rootTags
          height := by
            rw [hroot.2.1]
            omega
          even := h.even }
      obtain ⟨l', h1, h2, h3, h4, h5⟩ := ih hinv (by rw [hroot.1]; exact ptrToIndirect_ne_zero a)
        (hfresh.push hk) (by rw [hroot.2.1]; omega)
      rw [hroot.2.1] at h3 h5
      dsimp only
      rw [hg]
      refine ⟨l', h1, h2, by omega, fun b hb => ?_, ?_⟩
      · have hlt : k < (extendLoop g answers (k + 1) n).2.2 := by
          rcases h5 with ⟨-, -, he, -⟩ | ⟨-, he, -⟩ <;> omega
        rcases h4 b hb with hm | ⟨j, hj1, hj2, hj3⟩
        · rcases List.mem_cons.mp hm with rfl | hm
          · exact Or.inr ⟨k, le_rfl, hlt, hk⟩
          · exact Or.inl hm
        · exact Or.inr ⟨j, by omega, hj2, hj3⟩
      · have hsum : k + 1 + n = k + (n + 1) := by omega
        rw [hsum] at h5
        rcases h5 with ⟨he, hheight, htried, hall, hf⟩ | ⟨he, hlt, j, hj1, hj2, hj3⟩
        · refine Or.inl ⟨he, by omega, htried, fun j hj1 hj2 => ?_, hf⟩
          by_cases hj : j = k
          · rw [hj, hk]
            exact Option.some_ne_none a
          · exact hall j (by omega) hj2
        · exact Or.inr ⟨he, by omega, j, by omega, hj2, hj3⟩

/-- An insertion below the node at the root keeps the invariant. -/
theorem inserted_inv {p : ℕ} {h : ℕ} {r : ℤ × RadixTree × ℕ} {l' : List ℕ}
    (hroot : indirectToPtr t.rnode = p) (hheight : t.height = h + 1) (h6 : t.height ≤ 6)
    (htags : ∀ tag, t.rootTags tag = false) (heven : x % 2 = 0)
    (hins : Inserted t answers k item l x (p :: l') r) (hrnode : r.2.1.rnode = t.rnode)
    (hspine : Spine r.2.1.nodes (h + 1) p x (p :: l')) : TreeInv r.2.1 x (p :: l') := by
  cases hspine with
  | node _ _ _ _ nonzero even fresh count tags below =>
  have hp : indirectToPtr r.2.1.rnode = p := by rw [hrnode, hroot]
  exact
    { spine := by
        rw [hp, hins.height, hheight]
        exact .node h p x l' nonzero even fresh count tags below
      root := fun hz => by
        rw [hins.height, hheight] at hz
        omega
      null := fun hz => absurd (hp.symm.trans hz) nonzero
      rootTags := by
        rw [hins.rootTags]
        exact htags
      height := by
        rw [hins.height]
        exact h6
      even := heven }

/-- The outcome of an insertion is even. -/
theorem Outcome.even {r : ℤ × RadixTree × ℕ} (h : Outcome answers k item x r)
    (hitem : item % 2 = 0) : x % 2 = 0 := by
  rcases h with ⟨-, rfl, -⟩ | ⟨-, rfl, -⟩
  · exact hitem
  · rfl

/-- Insertion into a tree without an item. -/
theorem insertRoot_inv (hwords : 0 < words) (h : TreeInv t 0 l) (hlow : LowDigits index) (hindex : index < 2 ^ 32)
    (hitem : item ≠ 0) (heven : item % 2 = 0) (hfresh : FreshFrom answers k l) :
    ∃ r x l', insertFrom words t index item answers k 0 0 (indirectToPtr t.rnode) t.height = some r ∧
      TreeInv r.2.1 x l' ∧ r.2.1.height = t.height ∧ k ≤ r.2.2 ∧ Outcome answers k item x r ∧
      Added answers k r.2.2 l l' := by
  have hspine := h.spine
  have hheight := h.height
  generalize hp : indirectToPtr t.rnode = p at hspine
  generalize hH : t.height = H at hspine hheight
  cases hspine with
  | leaf _ =>
    refine ⟨_, item, [], by rw [insertFrom, if_neg (not_not.mpr rfl), if_neg (not_not.mpr rfl)], ?_,
      hH, le_rfl, Or.inl ⟨rfl, rfl, fun j h1 h2 => absurd h2 (by dsimp only; omega)⟩,
      fun a ha => (by cases ha)⟩
    exact
      { spine := by
          dsimp only
          rw [hH, indirectToPtr_even heven]
          exact .leaf item
        root := fun _ => rfl
        null := fun hz => by
          dsimp only at hz ⊢
          rwa [indirectToPtr_even heven] at hz
        rootTags := h.rootTags
        height := h.height
        even := heven }
  | missing H =>
    have hz := slotOffset_zero hlow hindex H (by omega)
    rw [insertFrom, if_pos rfl]
    cases hk : answers k with
    | none =>
      exact ⟨_, 0, [], rfl, h, hH, Nat.le_succ k,
        Or.inr ⟨rfl, rfl, k, le_rfl, Nat.lt_succ_self k, hk⟩, fun a ha => (by cases ha)⟩
    | some a =>
      obtain ⟨ha0, haeven, -⟩ := hfresh.fresh k a le_rfl hk
      dsimp only
      rw [if_neg (not_not.mpr rfl), hz, if_pos hwords]
      generalize hL : ({ setNode t a { zeroedNode with height := H + 1 } with
        rnode := ptrToIndirect a } : RadixTree) = linked
      have hnode : linked.nodes a = { zeroedNode with height := H + 1 } := by
        rw [← hL]
        exact setNode_self _ _ _
      have hroot : linked.rnode = ptrToIndirect a ∧ linked.height = H + 1 ∧
          linked.rootTags = t.rootTags := by
        rw [← hL]
        exact ⟨rfl, hH, rfl⟩
      have hchild : Spine linked.nodes (H + 1) a 0 [a] := by
        refine .node H a 0 [] ha0 haeven List.not_mem_nil ?_ ?_ ?_
        · rw [hnode]
          rfl
        · rw [hnode]
          exact fun _ _ => rfl
        · rw [hnode]
          exact .empty _ H
      obtain ⟨r, x, l', hr, hins, hrnode, hspine⟩ := insertFrom_spine hwords hlow hindex hitem hheight
        hchild (hfresh.next hk)
      have hout : Outcome answers k item x r := hins.outcome.imp
        (fun ho => ⟨ho.1, ho.2.1, fun j h1 h2 => by
          by_cases hj : j = k
          · rw [hj, hk]
            exact Option.some_ne_none a
          · exact ho.2.2 j (by omega) h2⟩)
        (fun ho => by
          obtain ⟨h1, h2, j, h3, h4, h5⟩ := ho
          exact ⟨h1, h2, j, by omega, h4, h5⟩)
      have htried := hins.tried
      refine ⟨r, x, a :: l', hr, inserted_inv
        (by rw [hroot.1, indirectToPtr_ptrToIndirect haeven]) hroot.2.1 (by rw [hroot.2.1]; exact hheight)
        (by rw [hroot.2.2]; exact h.rootTags) (hout.even heven) hins hrnode hspine,
        hins.height.trans hroot.2.1, by omega, hout, fun b hb => ?_⟩
      rcases hins.added b hb with hm | ⟨j, h1, h2, h3⟩
      · exact Or.inr ⟨k, le_rfl, by omega, List.mem_singleton.mp hm ▸ hk⟩
      · exact Or.inr ⟨j, by omega, h2, h3⟩
  | node H _ _ l nonzero even fresh count tags below =>
    have hz := slotOffset_zero hlow hindex H (by omega)
    obtain ⟨r, x, l', hr, hins, hrnode, hspine⟩ := insertFrom_spine hwords hlow hindex hitem hheight
      (.node H p 0 l nonzero even fresh count tags below) hfresh
    have hout : Outcome answers k item x r := hins.outcome
    refine ⟨r, x, p :: l', ?_, inserted_inv hp hH h.height h.rootTags (hout.even heven) hins hrnode
      hspine, hins.height.trans hH, hins.tried, hout, fun b hb => hins.added b hb⟩
    rw [insertFrom, if_neg nonzero, hz, if_pos hwords]
    exact hr

/-- Whether an allocation failed. -/
theorem failed_insert {n : ℕ} :
    failed (.insert index item answers) n = true ↔ ∃ j < n, answers j = none := by
  simp only [failed, List.any_eq_true, List.mem_range, Option.isNone_iff_eq_none]

/-- The answer and the map after an insertion into an empty map. -/
theorem Outcome.answers_map (index : ℕ) {r : ℤ × RadixTree × ℕ} (h : Outcome answers 0 item x r)
    (hitem : item ≠ 0) (hbound : r.1 = 0 → index ≤ radixTreeMaxindex r.2.1.height) :
    Answer.code r.1 = (mapStep (fun _ => none) (.insert index item answers)
        (failed (.insert index item answers) r.2.2)).1 ∧
      Holds (mapStep (fun _ => none) (.insert index item answers)
        (failed (.insert index item answers) r.2.2)).2 x r.2.1.height := by
  rcases h with ⟨he, rfl, hall⟩ | ⟨he, rfl, j, -, hj, hnone⟩
  · have hf : failed (.insert index x answers) r.2.2 = false := by
      rw [← Bool.not_eq_true, failed_insert]
      exact fun ⟨j, hj, hnone⟩ => hall j (Nat.zero_le j) hj hnone
    rw [hf, he]
    exact ⟨rfl, Or.inr ⟨hitem, index, hbound he, rfl⟩⟩
  · rw [failed_insert.mpr ⟨j, hj, hnone⟩, he]
    exact ⟨rfl, Or.inl ⟨rfl, rfl⟩⟩

/-- The map with one index bound. -/
theorem Holds.single {height : ℕ} (h : Holds map x height) (hx : x ≠ 0)
    (honly : ∀ k, map k ≠ none → k = index) :
    index ≤ radixTreeMaxindex height ∧ map = Function.update (fun _ => none) index (some x) := by
  rcases h with ⟨h0, -⟩ | ⟨-, i, hi, rfl⟩
  · exact absurd h0 hx
  · have he := honly i (by rw [Function.update_self]; exact Option.some_ne_none x)
    subst he
    exact ⟨hi, rfl⟩

/-- An empty root has no item below it. -/
theorem TreeInv.null_root (h : TreeInv t x l) (h0 : t.rnode = 0) : x = 0 ∧ l = [] := by
  have hs := h.spine
  have hp : indirectToPtr t.rnode = 0 := by rw [h0]; rfl
  rw [hp] at hs
  generalize t.height = H at hs
  cases hs with
  | leaf _ => exact ⟨rfl, rfl⟩
  | missing _ => exact ⟨rfl, rfl⟩
  | node _ _ _ _ nonzero even fresh count tags below => exact absurd rfl nonzero

/-- The result of an insertion, with what it means for the map. -/
def Inserts (l : List ℕ) (map : ℕ → Option ℕ) (index item : ℕ)
    (answers : ℕ → Option ℕ) (result : Option (ℤ × RadixTree × ℕ)) : Prop :=
  ∃ r x l', result = some r ∧ TreeInv r.2.1 x l' ∧ Added answers 0 r.2.2 l l' ∧
    Answer.code r.1 = (mapStep map (.insert index item answers)
      (failed (.insert index item answers) r.2.2)).1 ∧
    Holds (mapStep map (.insert index item answers)
      (failed (.insert index item answers) r.2.2)).2 x r.2.1.height

/-- Insertion without an extension, after `k` allocations that succeeded. -/
theorem insertBelow_inserts (hwords : 0 < words) (h : TreeInv t x l) (hmap : Holds map x t.height)
    (hhigh : index ≤ radixTreeMaxindex t.height) (hindex : index < 2 ^ 32) (hitem : item ≠ 0)
    (heven : item % 2 = 0) (hfresh : FreshFrom answers k l)
    (hbefore : ∀ j < k, answers j ≠ none) {l₀ : List ℕ} (hadded : Added answers 0 k l₀ l)
    (hright : (t.rnode = 0 ∧ answers k = none) ∨
      LowDigits index ∧ ∀ j, map j ≠ none → j = index) :
    Inserts l₀ map index item answers
      (insertFrom words t index item answers k 0 0 (indirectToPtr t.rnode) t.height) := by
  have hunbound : x = 0 → map = fun _ => none := fun hx => by
    rw [hx] at hmap
    exact hmap.empty
  have hfree : x = 0 → LowDigits index → Inserts l₀ map index item answers
      (insertFrom words t index item answers k 0 0 (indirectToPtr t.rnode) t.height) := by
    rintro rfl hlow
    obtain ⟨r, x, l', hr, hinv, hheight, htried, hout, hadd⟩ :=
      insertRoot_inv hwords h hlow hindex hitem heven hfresh
    have hall : Outcome answers 0 item x r := hout.imp
      (fun ho => ⟨ho.1, ho.2.1, fun j _ h2 => by
        by_cases hj : j < k
        · exact hbefore j hj
        · exact ho.2.2 j (by omega) h2⟩)
      (fun ho => by
          obtain ⟨h1, h2, j, h3, h4, h5⟩ := ho
          exact ⟨h1, h2, j, by omega, h4, h5⟩)
    obtain ⟨hanswer, hholds⟩ := hall.answers_map index hitem fun _ => by
      rwa [hheight]
    rw [hunbound rfl]
    refine ⟨r, x, l', hr, hinv, fun a ha => ?_, hanswer, hholds⟩
    rcases hadd a ha with hm | ⟨j, h1, h2, h3⟩
    · exact (hadded a hm).imp_right fun ⟨j, h1, h2, h3⟩ => ⟨j, h1, by omega, h3⟩
    · exact Or.inr ⟨j, by omega, h2, h3⟩
  rcases hright with ⟨h0, hk⟩ | ⟨hlow, honly⟩
  · obtain ⟨rfl, rfl⟩ := h.null_root h0
    by_cases hzero : t.height = 0
    · have hz : index = 0 := by
        rw [hzero] at hhigh
        exact Nat.le_zero.mp hhigh
      refine hfree rfl fun j _ _ => ?_
      rw [hz, Nat.zero_testBit]
    · obtain ⟨H, hH⟩ := Nat.exists_eq_succ_of_ne_zero hzero
      have hfailed : failed (.insert index item answers) (k + 1) = true :=
        failed_insert.mpr ⟨k, Nat.lt_succ_self k, hk⟩
      have hp : indirectToPtr t.rnode = 0 := by rw [h0]; rfl
      rw [hunbound rfl, hH, insertFrom, hp, if_pos rfl, hk]
      refine ⟨_, 0, [], rfl, h, fun a ha => (by cases ha), ?_, ?_⟩
      · rw [hfailed]
        rfl
      · rw [hfailed]
        exact Or.inl ⟨rfl, rfl⟩
  · by_cases hx : x = 0
    · exact hfree hx hlow
    · obtain ⟨-, hsingle⟩ := hmap.single hx honly
      have hbound : (map index).isSome = true := by
        rw [hsingle, Function.update_self]
        rfl
      rw [insertFrom_full hwords h.spine hx hlow hindex h.height item answers k 0 0]
      refine ⟨_, x, l, rfl, h, hadded, ?_, ?_⟩
      · rw [mapStep, if_pos hbound]
      · rw [mapStep, if_pos hbound]
        exact hmap

/-- An insertion answers as a map does and keeps the invariant. -/
theorem radixTreeInsert_inserts (hwords : 0 < words) (h : TreeInv t x l) (hmap : Holds map x t.height)
    (hindex : index < 2 ^ 32) (hitem : item ≠ 0) (heven : item % 2 = 0)
    (hfresh : FreshFrom answers 0 l)
    (hright : NoOffset t (.insert index item answers) ∨
      LowDigits index ∧ ∀ j, map j ≠ none → j = index) :
    Inserts l map index item answers (radixTreeInsert words t index item answers) := by
  have hempty : Added answers 0 0 l l := fun a ha => Or.inl ha
  rw [radixTreeInsert]
  by_cases hhigh : radixTreeMaxindex t.height < index
  · have hheight : t.height + 1 ≤ 6 := by
      have hsix : radixTreeMaxindex 6 = 2 ^ 32 - 1 := by decide
      have hne : t.height ≠ 6 := fun he => by
        rw [he, hsix] at hhigh
        omega
      have := h.height
      omega
    obtain ⟨h1, h2, h3⟩ := heightFor_spec hindex (n := 6) hheight (by omega)
    rw [if_pos hhigh, radixTreeExtend]
    generalize hH : heightFor index (t.height + 1) 6 = H at h1 h2 h3 hright ⊢
    by_cases h0 : t.rnode = 0
    · obtain ⟨rfl, rfl⟩ := h.null_root h0
      have hinv : TreeInv { t with height := H } 0 [] :=
        { spine := by
            dsimp only
            rw [h0]
            exact .empty _ H
          root := fun _ => h0
          null := fun _ => h0
          rootTags := h.rootTags
          height := h2
          even := rfl }
      rw [if_pos h0]
      dsimp only
      rw [if_neg (not_not.mpr rfl)]
      refine insertBelow_inserts hwords hinv (hmap.mono (b := H) (by omega) h2) h3 hindex hitem heven hfresh
        (fun j hj => absurd hj (Nat.not_lt_zero j)) hempty (hright.imp_left fun hn => ?_)
      exact hn.resolve_left fun hc => hc.1 h0
    · obtain ⟨l', hinv, hne, hmono, hadded, hend⟩ :=
        extendLoop_inv (H - t.height) h h0 hfresh (by omega)
      rw [if_neg h0]
      generalize extendLoop t answers 0 (H - t.height) = e at hinv hne hmono hadded hend ⊢
      rcases hend with ⟨he, heq, htried, hall, hf⟩ | ⟨he, -, j, -, hj, hnone⟩
      · rw [if_neg (not_not.mpr he)]
        have hHe : e.2.1.height = H := by omega
        rw [Nat.zero_add] at htried hall hf
        refine insertBelow_inserts hwords hinv (hmap.mono (by omega) hinv.height) (by rwa [hHe]) hindex
          hitem heven (by rwa [htried]) (fun j hj => hall j (Nat.zero_le j) (by omega)) hadded ?_
        refine Or.inr (hright.resolve_left fun hn => ?_)
        rcases hn with ⟨-, -, j, hj, hnone⟩ | ⟨hc, -⟩
        · rw [hH] at hj
          exact hall j (Nat.zero_le j) hj hnone
        · exact h0 hc
      · have hfailed : failed (.insert index item answers) e.2.2 = true :=
          failed_insert.mpr ⟨j, hj, hnone⟩
        have hu := hmap.unbound hhigh
        rw [if_pos (by rw [he]; decide)]
        refine ⟨e, x, l', rfl, hinv, hadded, ?_, ?_⟩
        · rw [mapStep, hu, hfailed, he]
          rfl
        · rw [mapStep, hu, hfailed]
          exact hmap.mono hmono hinv.height
  · rw [if_neg hhigh, if_neg (not_not.mpr rfl)]
    refine insertBelow_inserts hwords h hmap (Nat.le_of_not_lt hhigh) hindex hitem heven hfresh
      (fun j hj => absurd hj (Nat.not_lt_zero j)) hempty (hright.imp_left fun hn => ?_)
    exact hn.resolve_left fun hc => hhigh hc.2.1

/-- An item without tags needs no clearing. -/
theorem clearTagsFrom_none {node offset : ℕ} (h : ∀ tag, (t.nodes node).tags tag offset = false)
    (tag n : ℕ) : clearTagsFrom words t index node offset tag n = some t := by
  induction n generalizing tag with
  | zero => rfl
  | succ n ih =>
    rw [clearTagsFrom, h tag]
    exact ih (tag + 1)

/-- A deletion through nodes down to an item returns it and leaves an empty tree. -/
theorem radixTreeDelete_drops (hwords : 0 < words) (h : TreeInv t x l) (hx : x ≠ 0) (hlow : LowDigits index)
    (hindex : index < 2 ^ 32) (h0 : t.height ≠ 0) (hhigh : index ≤ radixTreeMaxindex t.height) :
    ∃ t', radixTreeDelete words t index = some (x, t') ∧ t'.height = 0 ∧ t'.rnode = 0 ∧
      ∀ tag, t'.rootTags tag = false := by
  rw [radixTreeDelete, if_neg (not_lt.mpr hhigh), if_neg h0]
  obtain ⟨path, hw, hpath⟩ := walkFrom_spine hwords h.spine hlow hindex h.height []
  rw [hw, Option.bind_some]
  have hp := hpath hx
  rw [List.append_nil, ← List.map_reverse] at hp
  obtain ⟨-, hnodup, hcount⟩ := h.spine.counts hx
  have htags := h.spine.tags
  have hnodup' : l.reverse.Nodup := List.nodup_reverse.mpr hnodup
  have hmem : ∀ a ∈ l.reverse, a ∈ l := fun a ha => List.mem_reverse.mp ha
  have hne : l.reverse ≠ [] := fun hc => by
    have hs := h.spine
    rw [List.reverse_eq_nil_iff.mp hc] at hs
    generalize t.height = H at hs h0
    generalize indirectToPtr t.rnode = p at hs
    cases hs with
    | leaf _ => exact h0 rfl
    | missing _ => exact hx rfl
  have hall := unlinkPath_all (t := t) hnodup' fun a ha => hcount a (hmem a ha)
  generalize l.reverse = path' at hp hmem hne hall
  cases path' with
  | nil => exact absurd rfl hne
  | cons a rest =>
    obtain ⟨y, rfl⟩ : ∃ y, x = y + 1 := Nat.exists_eq_succ_of_ne_zero hx
    have hclear : clearTagsFrom words t index a 0 0 maxTags = some t :=
      clearTagsFrom_none (fun tag => htags a (hmem a List.mem_cons_self) tag 0) 0 maxTags
    rw [List.map_cons] at hp hall
    simp only [hp, hclear, Option.map_some]
    exact ⟨_, rfl, hall⟩

/-- A deletion answers as a map does and keeps the invariant. -/
theorem radixTreeDelete_deletes (hwords : 0 < words) (h : TreeInv t x l) (hmap : Holds map x t.height)
    (hindex : index < 2 ^ 32)
    (hright : NoOffset t (.delete index) ∨ LowDigits index ∧ ∀ j, map j ≠ none → j = index) :
    ∃ r x' l', radixTreeDelete words t index = some r ∧ TreeInv r.2 x' l' ∧ (∀ a ∈ l', a ∈ l) ∧
      r.1 = (map index).getD 0 ∧ Holds (Function.update map index none) x' r.2.height := by
  have hunbound : map index = none → Holds (Function.update map index none) x t.height := fun hu => by
    rwa [← hu, Function.update_eq_self]
  have hdropped : ∀ t' : RadixTree, t'.height = 0 → t'.rnode = 0 →
      (∀ tag, t'.rootTags tag = false) → TreeInv t' 0 [] := fun t' h1 h2 h3 =>
    { spine := by
        rw [h1, h2]
        exact .leaf 0
      root := fun _ => h2
      null := fun _ => h2
      rootTags := h3
      height := by omega
      even := rfl }
  rw [radixTreeDelete]
  by_cases hhigh : radixTreeMaxindex t.height < index
  · have hu := hmap.unbound hhigh
    rw [if_pos hhigh]
    exact ⟨_, x, l, rfl, h, fun a ha => ha, by rw [hu]; rfl, hunbound hu⟩
  · rw [if_neg hhigh]
    by_cases h0 : t.height = 0
    · have hz : index = 0 := by
        rw [h0] at hhigh
        exact Nat.le_zero.mp (Nat.le_of_not_lt hhigh)
      rw [if_pos h0]
      refine ⟨_, 0, [], rfl, hdropped _ h0 rfl fun _ => rfl, fun a ha => (by cases ha), ?_, ?_⟩
      · rw [h.root h0]
        rcases hmap with ⟨rfl, rfl⟩ | ⟨-, i, hi, rfl⟩
        · rfl
        · rw [h0] at hi
          have hi0 : i = 0 := Nat.le_zero.mp hi
          rw [hi0, hz, Function.update_self]
          rfl
      · refine Or.inl ⟨rfl, ?_⟩
        rcases hmap with ⟨rfl, rfl⟩ | ⟨-, i, hi, rfl⟩
        · exact Function.update_eq_self index fun _ => none
        · rw [h0] at hi
          have hi0 : i = 0 := Nat.le_zero.mp hi
          rw [hi0, hz, Function.update_idem]
          exact Function.update_eq_self 0 fun _ => none
    · rw [if_neg h0]
      by_cases hnull : t.rnode = 0
      · obtain ⟨rfl, rfl⟩ := h.null_root hnull
        obtain ⟨H, hH⟩ := Nat.exists_eq_succ_of_ne_zero h0
        have hp : indirectToPtr t.rnode = 0 := by rw [hnull]; rfl
        have hu : map index = none := by rw [hmap.empty]
        rw [hp, hH, walkFrom, if_pos rfl]
        exact ⟨_, 0, [], rfl, h, fun a ha => ha, by rw [hu]; rfl, hunbound hu⟩
      · obtain ⟨hlow, honly⟩ := hright.resolve_left fun hn => by
          rcases hn with hc | hc | hc
          · exact hhigh hc
          · exact h0 hc
          · exact hnull hc
        by_cases hx : x = 0
        · subst hx
          obtain ⟨path, hw, -⟩ := walkFrom_spine hwords h.spine hlow hindex h.height []
          have hu : map index = none := by rw [hmap.empty]
          rw [hw, Option.bind_some]
          exact ⟨_, 0, l, rfl, h, fun a ha => ha, by rw [hu]; rfl, hunbound hu⟩
        · obtain ⟨t', hdelete, hheight, hrnode, htags⟩ :=
            radixTreeDelete_drops hwords h hx hlow hindex h0 (not_lt.mp hhigh)
          rw [radixTreeDelete, if_neg hhigh, if_neg h0] at hdelete
          obtain ⟨-, hsingle⟩ := hmap.single hx honly
          refine ⟨_, 0, [], hdelete, hdropped t' hheight hrnode htags, fun a ha => (by cases ha),
            ?_, Or.inl ⟨rfl, ?_⟩⟩
          · rw [hsingle, Function.update_self]
            rfl
          · rw [hsingle, Function.update_idem]
            exact Function.update_eq_self index fun _ => none

/-- The tree, the map and the nodes in use belong together. -/
def WorldInv (w : RadixWorld) : Prop :=
  ∃ x l, TreeInv w.tree x l ∧ (∀ a ∈ l, a ∈ w.used) ∧ Holds w.map x w.tree.height

/-- The tree answers an operation as the map does, within `words` words of every node. -/
def AnswersAsMap (words : ℕ) (w : RadixWorld) (op : RadixOp) : Prop :=
  ∃ r, act words w.tree op = some r ∧ r.1 = (mapStep w.map op (failed op r.2.2)).1

/-- One operation answers as the map does and keeps the invariant. -/
theorem perform_step {w : RadixWorld} {op : RadixOp} (hwords : 0 < words) (h : WorldInv w) (hlegal : Legal w op)
    (hright : OffsetsRight w op) :
    AnswersAsMap words w op ∧ ∃ t, perform words w op = some t ∧ WorldInv t := by
  obtain ⟨x, l, hinv, hused, hmap⟩ := h
  cases op with
  | insert index item answers =>
    obtain ⟨hindex, hitem, heven, hfresh⟩ := hlegal
    obtain ⟨r, x', l', hr, hinv', hadded, hanswer, hholds⟩ := radixTreeInsert_inserts hwords hinv hmap
      hindex hitem heven
      (hfresh.sub hused) hright
    have hact : act words w.tree (.insert index item answers) = some (.code r.1, r.2.1, r.2.2) := by
      rw [act, hr, Option.map_some]
    refine ⟨⟨_, hact, hanswer⟩, _, by rw [perform, hact, Option.map_some], x', l', hinv',
      fun a ha => ?_, hholds⟩
    rcases hadded a ha with hm | ⟨j, -, hj, hsome⟩
    · exact List.mem_append_right _ (hused a hm)
    · exact List.mem_append_left _ (List.mem_filterMap.mpr ⟨j, List.mem_range.mpr hj, hsome⟩)
  | delete index =>
    obtain ⟨r, x', l', hr, hinv', hkept, hanswer, hholds⟩ := radixTreeDelete_deletes hwords hinv hmap
      hlegal hright
    have hact : act words w.tree (.delete index) = some (.item r.1, r.2, 0) := by
      rw [act, hr, Option.map_some]
    refine ⟨⟨_, hact, ?_⟩, _, by rw [perform, hact, Option.map_some], x', l', hinv', ?_, ?_⟩
    · rw [hanswer]
      rfl
    · exact fun a ha => hused a (hkept a ha)
    · exact hholds

/-- An empty tree stands for the empty map. -/
theorem initRadixTree_inv : WorldInv ⟨initRadixTree, fun _ => none, []⟩ :=
  ⟨0, [], ⟨.leaf 0, fun _ => rfl, fun _ => rfl, fun _ => rfl, by decide, rfl⟩,
    fun a ha => (by cases ha), Or.inl ⟨rfl, rfl⟩⟩

/-- A node has slots. -/
theorem mapSize_pos : 0 < mapSize := by decide

/-- Over every run whose operations compute right offsets, each insertion and deletion returns,
with every offset inside its node, and answers as the map does. -/
theorem history_isMap (ops : List RadixOp)
    (hrun : Admissible (perform mapSize) (fun w op => Legal w op ∧ OffsetsRight w op)
      ⟨initRadixTree, fun _ => none, []⟩ ops)
    (done rest : List RadixOp) (op : RadixOp) (hops : ops = done ++ op :: rest) :
    ∃ w, exec (perform mapSize) ⟨initRadixTree, fun _ => none, []⟩ done = some w ∧ AnswersAsMap mapSize w op := by
  rw [hops] at hrun
  obtain ⟨w, hw, hinv⟩ := exec_total
    (fun (w : RadixWorld) (op : RadixOp) (h : WorldInv w) hok =>
      (perform_step mapSize_pos h hok.1 hok.2).2) initRadixTree_inv hrun.prefix
  have hok := (hrun.suffix hw).1
  exact ⟨w, hw, (perform_step mapSize_pos hinv hok.1 hok.2).1⟩

/-- An allocator that returns one node and then fails. -/
def oneNode (a k : ℕ) : Option ℕ := if k = 0 then some a else none

/-- One new node is no node in use. -/
theorem oneNode_fresh {a : ℕ} (h0 : a ≠ 0) (heven : a % 2 = 0) (hnew : a ∉ l) :
    FreshFrom (oneNode a) 0 l where
  fresh j b _ hb := by
    rw [oneNode, Option.ite_none_right_eq_some, Option.some.injEq] at hb
    exact hb.2 ▸ ⟨h0, heven, hnew⟩
  once i j b _ _ hi hj := by
    rw [oneNode, Option.ite_none_right_eq_some] at hi hj
    rw [hi.1, hj.1]

/-- Bind index one in a tree of one node. -/
def bindOne : RadixOp := .insert 1 8 (oneNode 4096)

/-- Binding index one is promised right in an empty tree. -/
theorem bindOne_legal : Legal ⟨initRadixTree, fun _ => none, []⟩ bindOne :=
  ⟨by decide, by decide, by decide, oneNode_fresh (by decide) (by decide) List.not_mem_nil⟩

/-- After index one is bound, a second insertion at it is answered as by a map. -/
theorem history_isMap_bindOne :
    ∃ w, exec (perform mapSize) ⟨initRadixTree, fun _ => none, []⟩ [bindOne] = some w ∧
      AnswersAsMap mapSize w (.insert 1 16 (oneNode 8192)) := by
  have hlow : LowDigits 1 := by
    intro j h1 h2
    have hall : ∀ j ≤ 5, 1 ≤ j → Nat.testBit 1 (mapShift * j) = false := by decide
    exact hall j h2 h1
  refine history_isMap [bindOne, .insert 1 16 (oneNode 8192)] ⟨⟨bindOne_legal, Or.inr ⟨hlow, ?_⟩⟩,
    fun t ht => ?_⟩ [bindOne] [] _ rfl
  · exact fun k hk => absurd rfl hk
  · obtain rfl := Option.some.inj ht
    refine ⟨⟨⟨by decide, by decide, by decide, oneNode_fresh (by decide) (by decide) (by decide)⟩,
      Or.inr ⟨hlow, fun k hk => ?_⟩⟩, fun _ _ => trivial⟩
    by_contra hne
    exact hk (Function.update_of_ne hne _ _)

/-- The tree takes the indices one and two for the same, since the mask drops their digits. -/
theorem insert_two_counterexample :
    Admissible (perform mapSize) Legal ⟨initRadixTree, fun _ => none, []⟩
        [bindOne, .insert 2 16 (oneNode 8192)] ∧
      ∃ w, exec (perform mapSize) ⟨initRadixTree, fun _ => none, []⟩ [bindOne] = some w ∧ w.map 2 = none ∧
        (act mapSize w.tree (.insert 2 16 (oneNode 8192))).map Prod.fst = some (.code eexist) ∧
        ¬ AnswersAsMap mapSize w (.insert 2 16 (oneNode 8192)) := by
  refine ⟨⟨bindOne_legal, fun t ht => ?_⟩, _, rfl, rfl, rfl, fun h => ?_⟩
  · obtain rfl := Option.some.inj ht
    exact ⟨⟨by decide, by decide, by decide, oneNode_fresh (by decide) (by decide) (by decide)⟩,
      fun _ _ => trivial⟩
  · obtain ⟨r, hact, hanswer⟩ := h
    obtain rfl := Option.some.inj hact
    exact absurd hanswer (by decide)

end BiscuitOS.RadixHistory
