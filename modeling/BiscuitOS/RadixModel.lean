import BiscuitOS.MachineWord

/-!
# Radix trees

`lib/radix-tree.c` with `CONFIG_BASE_SMALL` zero. Pointers are words: zero is
`NULL`, the low bit tags the root pointer, and nodes are found in a store by
their addresses. Each allocation of a node is answered by an address or fails.
Freed nodes are queued with `call_rcu`, which does nothing here, so no node is
used again. An offset is zero or one behind the last slot, where the first word
of the tags lies. `words` bounds the words from the first slot on that an
operation may use: `mapSize` for the slots alone, `mapSize + 1` for what the
program uses. The word behind the slots is slot `mapSize` of the model, which is
zero like the tags until an item or a node is stored there.
-/

namespace BiscuitOS.RadixModel

open MachineWord

/-- `RADIX_TREE_MAP_SHIFT`. -/
def mapShift : ℕ := 6

/-- `RADIX_TREE_MAP_SIZE`. -/
def mapSize : ℕ := 2 ^ mapShift

/-- `RADIX_TREE_MAP_MASK`, which is defined as the size. -/
def mapMask : ℕ := mapSize

/-- `RADIX_TREE_MAX_TAGS`. -/
def maxTags : ℕ := 3

/-- `-ENOMEM`. -/
def enomem : ℤ := -12

/-- `-EEXIST`. -/
def eexist : ℤ := -17

/-- `struct radix_tree_node`. -/
structure RadixTreeNode where
  /-- `height`. -/
  height : ℕ
  /-- `count`. -/
  count : ℕ
  /-- `slots`. -/
  slots : ℕ → ℕ
  /-- `tags`, by tag and offset. -/
  tags : ℕ → ℕ → Bool

/-- A node as `radix_tree_node_ctor` leaves it. -/
def zeroedNode : RadixTreeNode := ⟨0, 0, fun _ => 0, fun _ _ => false⟩

/-- `struct radix_tree_root` and the nodes. -/
structure RadixTree where
  /-- `height`. -/
  height : ℕ
  /-- `rnode`. -/
  rnode : ℕ
  /-- The tags kept in `gfp_mask`. -/
  rootTags : ℕ → Bool
  /-- The nodes, by address. -/
  nodes : ℕ → RadixTreeNode

/-- `INIT_RADIX_TREE`. -/
def initRadixTree : RadixTree := ⟨0, 0, fun _ => false, fun _ => zeroedNode⟩

/-- `ptr_to_indirect`. -/
def ptrToIndirect (ptr : ℕ) : ℕ := ptr ||| 1

/-- `indirect_to_ptr`. -/
def indirectToPtr (ptr : ℕ) : ℕ := ptr - ptr % 2

/-- `__maxindex`. -/
def radixTreeMaxindex (height : ℕ) : ℕ :=
  let width := height * mapShift
  if 32 < width then 2 ^ 32 - 1 else if 32 ≤ 32 - width then 0 else (2 ^ 32 - 1) / 2 ^ (32 - width)

/-- The offset of an index in a node `below` levels above the lowest ones. -/
def slotOffset (index below : ℕ) : ℕ := (index >>> (below * mapShift)) &&& mapMask

/-- Store a node. -/
def setNode (t : RadixTree) (node : ℕ) (n : RadixTreeNode) : RadixTree :=
  { t with nodes := Function.update t.nodes node n }

/-- Store one slot of a node. -/
def setSlot (t : RadixTree) (node offset value : ℕ) : RadixTree :=
  setNode t node { t.nodes node with slots := Function.update (t.nodes node).slots offset value }

/-- Set the count of a node. -/
def setCount (t : RadixTree) (node count : ℕ) : RadixTree :=
  setNode t node { t.nodes node with count := count }

/-- A node stored. -/
@[simp] theorem setNode_self (t : RadixTree) (node : ℕ) (n : RadixTreeNode) :
    (setNode t node n).nodes node = n := Function.update_self _ _ _

/-- The other nodes. -/
theorem setNode_other (t : RadixTree) {node a : ℕ} (n : RadixTreeNode) (h : a ≠ node) :
    (setNode t node n).nodes a = t.nodes a := Function.update_of_ne h _ _

/-- A node with one slot stored. -/
@[simp] theorem setSlot_self (t : RadixTree) (node offset value : ℕ) :
    (setSlot t node offset value).nodes node =
      { t.nodes node with slots := Function.update (t.nodes node).slots offset value } :=
  setNode_self _ _ _

/-- The nodes without a slot stored. -/
theorem setSlot_other (t : RadixTree) {node a : ℕ} (offset value : ℕ) (h : a ≠ node) :
    (setSlot t node offset value).nodes a = t.nodes a := setNode_other _ _ h

/-- A node with its count stored. -/
@[simp] theorem setCount_self (t : RadixTree) (node count : ℕ) :
    (setCount t node count).nodes node = { t.nodes node with count := count } := setNode_self _ _ _

/-- The nodes without their count stored. -/
theorem setCount_other (t : RadixTree) {node a : ℕ} (count : ℕ) (h : a ≠ node) :
    (setCount t node count).nodes a = t.nodes a := setNode_other _ _ h

/-- The height that `radix_tree_extend` aims at, from `height` on, with the tries left. -/
def heightFor (index height : ℕ) : ℕ → ℕ
  | 0 => height
  | n + 1 => if radixTreeMaxindex height < index then heightFor index (height + 1) n else height

/-- The loop of `radix_tree_extend` that puts a new node above the root, with the rounds left:
the error, the tree, and the number of the next allocation. -/
def extendLoop (t : RadixTree) (answers : ℕ → Option ℕ) (k : ℕ) : ℕ → ℤ × RadixTree × ℕ
  | 0 => (0, t, k)
  | n + 1 =>
    match answers k with
    | none => (enomem, t, k + 1)
    | some node =>
      let grown := setNode t node
        { height := t.height + 1
          count := 1
          slots := Function.update zeroedNode.slots 0 (indirectToPtr t.rnode)
          tags := fun tag offset => t.rootTags tag && decide (tag < maxTags ∧ offset = 0) }
      extendLoop { grown with rnode := ptrToIndirect node, height := t.height + 1 } answers (k + 1) n

/-- `radix_tree_extend`. -/
def radixTreeExtend (t : RadixTree) (index : ℕ) (answers : ℕ → Option ℕ) : ℤ × RadixTree × ℕ :=
  let height := heightFor index (t.height + 1) 6
  if t.rnode = 0 then (0, { t with height := height }, 0)
  else extendLoop t answers 0 (height - t.height)

/-- The loop of `radix_tree_insert` at the word `slot` found at `offset` of `node`, with the levels
left, and what follows the loop: the result, the tree and the number of the next allocation. -/
def insertFrom (words : ℕ) (t : RadixTree) (index item : ℕ) (answers : ℕ → Option ℕ)
    (k node offset slot : ℕ) : ℕ → Option (ℤ × RadixTree × ℕ)
  | 0 =>
    if slot ≠ 0 then some (eexist, t, k)
    else if node ≠ 0 then
      some (0, setSlot (setCount t node ((t.nodes node).count + 1)) node offset item, k)
    else some (0, { t with rnode := item }, k)
  | height + 1 =>
    let offset' := slotOffset index height
    if slot = 0 then
      match answers k with
      | none => some (enomem, t, k + 1)
      | some fresh =>
        let added := setNode t fresh { zeroedNode with height := height + 1 }
        let linked :=
          if node ≠ 0 then
            let below := setSlot added node offset fresh
            setCount below node ((below.nodes node).count + 1)
          else { added with rnode := ptrToIndirect fresh }
        if offset' < words then
          insertFrom words linked index item answers (k + 1) fresh offset'
            ((linked.nodes fresh).slots offset') height
        else none
    else if offset' < words then
      insertFrom words t index item answers k slot offset' ((t.nodes slot).slots offset') height
    else none

/-- `radix_tree_insert`: the result, the tree and the number of allocations tried. -/
def radixTreeInsert (words : ℕ) (t : RadixTree) (index item : ℕ) (answers : ℕ → Option ℕ) :
    Option (ℤ × RadixTree × ℕ) :=
  let extended :=
    if radixTreeMaxindex t.height < index then radixTreeExtend t index answers else (0, t, 0)
  if extended.1 ≠ 0 then some extended
  else
    insertFrom words extended.2.1 index item answers extended.2.2 0 0
      (indirectToPtr extended.2.1.rnode) extended.2.1.height

/-- The walk down to an index from the word `slot`, with the levels left: the word found and the
nodes with the offsets taken, the lowest one first. -/
def walkFrom (words : ℕ) (t : RadixTree) (index slot : ℕ) (path : List (ℕ × ℕ)) :
    ℕ → Option (ℕ × List (ℕ × ℕ))
  | 0 => some (slot, path)
  | height + 1 =>
    if slot = 0 then some (0, path)
    else
      let offset := slotOffset index height
      if offset < words then
        walkFrom words t index ((t.nodes slot).slots offset) ((slot, offset) :: path) height
      else none

/-- `any_tag_set`. -/
def anyTagSet (n : RadixTreeNode) (tag : ℕ) : Bool := (List.range mapSize).any (n.tags tag)

/-- The loop of `radix_tree_tag_clear` up the path. -/
def tagClearPath (t : RadixTree) (tag : ℕ) : List (ℕ × ℕ) → RadixTree
  | [] => { t with rootTags := Function.update t.rootTags tag false }
  | (node, offset) :: path =>
    if (t.nodes node).tags tag offset then
      let n := t.nodes node
      let cleared : RadixTreeNode :=
        { n with tags := Function.update n.tags tag (Function.update (n.tags tag) offset false) }
      let t := setNode t node cleared
      if anyTagSet cleared tag then t else tagClearPath t tag path
    else t

/-- `radix_tree_tag_clear`, without the item it returns. -/
def radixTreeTagClear (words : ℕ) (t : RadixTree) (index tag : ℕ) : Option RadixTree :=
  if radixTreeMaxindex t.height < index then some t
  else
    (walkFrom words t index (indirectToPtr t.rnode) [] t.height).map fun walked =>
      if walked.1 = 0 then t else tagClearPath t tag walked.2

/-- The loop of `radix_tree_delete` that clears the tags of the item at `offset` of `node`, with
the tags left. -/
def clearTagsFrom (words : ℕ) (t : RadixTree) (index node offset tag : ℕ) : ℕ → Option RadixTree
  | 0 => some t
  | n + 1 =>
    if (t.nodes node).tags tag offset then
      (radixTreeTagClear words t index tag).bind fun t =>
        clearTagsFrom words t index node offset (tag + 1) n
    else clearTagsFrom words t index node offset (tag + 1) n

/-- `radix_tree_shrink`, with the rounds left. -/
def radixTreeShrink (t : RadixTree) : ℕ → RadixTree
  | 0 => t
  | n + 1 =>
    if 0 < t.height then
      let toFree := indirectToPtr t.rnode
      if (t.nodes toFree).count ≠ 1 ∨ (t.nodes toFree).slots 0 = 0 then t
      else
        let child := (t.nodes toFree).slots 0
        let newptr := if 1 < t.height then ptrToIndirect child else child
        let shrunk := { t with rnode := newptr, height := t.height - 1 }
        let tagged := if shrunk.height = 0 then setSlot shrunk toFree 0 (child ||| 1) else shrunk
        radixTreeShrink tagged n
    else t

/-- The loop of `radix_tree_delete` up the path, which drops the nodes that become empty. -/
def unlinkPath (t : RadixTree) : List (ℕ × ℕ) → RadixTree
  | [] => { t with rootTags := fun _ => false, height := 0, rnode := 0 }
  | (node, offset) :: path =>
    let cleared := setSlot t node offset 0
    let count := wrapSub 32 (cleared.nodes node).count 1
    let counted := setCount cleared node count
    if count ≠ 0 then
      if node = indirectToPtr counted.rnode then radixTreeShrink counted counted.height else counted
    else unlinkPath counted path

/-- `radix_tree_delete`: the item returned, zero for none, and the tree. -/
def radixTreeDelete (words : ℕ) (t : RadixTree) (index : ℕ) : Option (ℕ × RadixTree) :=
  if radixTreeMaxindex t.height < index then some (0, t)
  else if t.height = 0 then some (t.rnode, { t with rootTags := fun _ => false, rnode := 0 })
  else
    (walkFrom words t index (indirectToPtr t.rnode) [] t.height).bind fun walked =>
      match walked.1, walked.2 with
      | 0, _ => some (0, t)
      | _, [] => some (walked.1, t)
      | slot, (node, offset) :: path =>
        (clearTagsFrom words t index node offset 0 maxTags).map fun untagged =>
          (slot, unlinkPath untagged ((node, offset) :: path))

end BiscuitOS.RadixModel
