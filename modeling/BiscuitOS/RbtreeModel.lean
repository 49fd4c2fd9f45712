import BiscuitOS.ColorTree

/-!
# Red-black trees in memory

`lib/rbtree.c` and `linux/rbtree.h`. Nodes are found by their addresses, zero
is `NULL`, and the parent and the colour of a node share a word. The mirrored
branches of the source are one definition with the side as a parameter. Using
a node at `NULL` does not return, nor does a loop that runs out of fuel.
-/

namespace BiscuitOS.RbtreeModel

open ColorTree

/-- `struct rb_node`. -/
structure RbNode where
  /-- `rb_parent_color`. -/
  rbParentColor : ℕ
  /-- `rb_right`. -/
  rbRight : ℕ
  /-- `rb_left`. -/
  rbLeft : ℕ
  deriving DecidableEq

/-- `struct rb_root` and the nodes. -/
structure RbTree where
  /-- `rb_node`. -/
  rbNode : ℕ
  /-- The nodes, by address. -/
  nodes : ℕ → RbNode

/-- `RB_ROOT`, with nodes that are not initialised. -/
def rbRoot (nodes : ℕ → RbNode) : RbTree := ⟨0, nodes⟩

/-- `rb_parent`. -/
def rbParent (n : RbNode) : ℕ := n.rbParentColor / 4 * 4

/-- `rb_color`. -/
def rbColor (n : RbNode) : ℕ := n.rbParentColor % 2

/-- `rb_is_red`. -/
def rbIsRed (n : RbNode) : Bool := rbColor n == 0

/-- `rb_is_black`. -/
def rbIsBlack (n : RbNode) : Bool := rbColor n != 0

/-- `rb_set_red`. -/
def rbSetRed (n : RbNode) : RbNode := { n with rbParentColor := n.rbParentColor / 2 * 2 }

/-- `rb_set_black`. -/
def rbSetBlack (n : RbNode) : RbNode := { n with rbParentColor := n.rbParentColor ||| 1 }

/-- `rb_set_parent`. -/
def rbSetParent (p : ℕ) (n : RbNode) : RbNode :=
  { n with rbParentColor := (n.rbParentColor % 4) ||| p }

/-- `rb_set_color`. -/
def rbSetColor (color : ℕ) (n : RbNode) : RbNode :=
  { n with rbParentColor := (n.rbParentColor / 2 * 2) ||| color }

/-- `rb_left` or `rb_right`. -/
def RbNode.child (n : RbNode) : Side → ℕ
  | .left => n.rbLeft
  | .right => n.rbRight

/-- Store a child. -/
def setChild (side : Side) (child : ℕ) (n : RbNode) : RbNode :=
  match side with
  | .left => { n with rbLeft := child }
  | .right => { n with rbRight := child }

/-- Read a node. -/
def load (s : RbTree) (a : ℕ) : Option RbNode := if a = 0 then none else some (s.nodes a)

/-- Write a node that is not `NULL`. -/
def store (s : RbTree) (a : ℕ) (f : RbNode → RbNode) : RbTree :=
  { s with nodes := Function.update s.nodes a (f (s.nodes a)) }

/-- Change a node. -/
def modifyNode (s : RbTree) (a : ℕ) (f : RbNode → RbNode) : Option RbTree :=
  if a = 0 then none else some (store s a f)

/-- Change a node unless it is `NULL`. -/
def modifySome (s : RbTree) (a : ℕ) (f : RbNode → RbNode) : RbTree :=
  if a = 0 then s else store s a f

/-- Let the parent of a node, or the root, point to another one. The child on `side` is tested
first. -/
def relink (side : Side) (s : RbTree) (parent old new : ℕ) : RbTree :=
  if parent = 0 then { s with rbNode := new }
  else if (s.nodes parent).child side = old then store s parent (setChild side new)
  else store s parent (setChild side.other new)

/-- `__rb_rotate_left` and `__rb_rotate_right`, down on `side`. -/
def rotate (side : Side) (s : RbTree) (node : ℕ) : Option RbTree :=
  (load s node).bind fun n =>
  let up := n.child side.other
  let parent := rbParent n
  (load s up).bind fun u =>
  let inner := u.child side
  let s := store s node (setChild side.other inner)
  let s := modifySome s inner (rbSetParent node)
  let s := store s up (setChild side node)
  let s := store s up (rbSetParent parent)
  let s := relink side s parent node up
  modifyNode s node (rbSetParent up)

/-- `__rb_rotate_left`. -/
def rbRotateLeft : RbTree → ℕ → Option RbTree := rotate .left

/-- `__rb_rotate_right`. -/
def rbRotateRight : RbTree → ℕ → Option RbTree := rotate .right

/-- The body of the loop of `rb_insert_color` for a parent on `side` of the grandparent: the tree,
and the node from which the loop goes on. -/
def insertColorStep (side : Side) (s : RbTree) (node parent gparent : ℕ) : Option (RbTree × ℕ) :=
  (load s gparent).bind fun g =>
  let uncle := g.child side.other
  if uncle ≠ 0 ∧ rbIsRed (s.nodes uncle) = true then
    (modifyNode s uncle rbSetBlack).bind fun s =>
    (modifyNode s parent rbSetBlack).bind fun s =>
    (modifyNode s gparent rbSetRed).map fun s => (s, gparent)
  else
    (load s parent).bind fun p =>
    (if p.child side.other = node then (rotate side s parent).map fun s => (s, parent, node)
      else some (s, node, parent)).bind fun turned =>
    (modifyNode turned.1 turned.2.2 rbSetBlack).bind fun s =>
    (modifyNode s gparent rbSetRed).bind fun s =>
    (rotate side.other s gparent).map fun s => (s, turned.2.1)

/-- The loop of `rb_insert_color`, with fuel. -/
def insertColorLoop (s : RbTree) (node : ℕ) : ℕ → Option RbTree
  | 0 => none
  | fuel + 1 =>
    (load s node).bind fun n =>
    let parent := rbParent n
    if parent ≠ 0 ∧ rbIsRed (s.nodes parent) = true then
      (load s parent).bind fun p =>
      let gparent := rbParent p
      (load s gparent).bind fun g =>
      let side := if parent = g.rbLeft then Side.left else Side.right
      (insertColorStep side s node parent gparent).bind fun next =>
        insertColorLoop next.1 next.2 fuel
    else some s

/-- `rb_insert_color`. -/
def rbInsertColor (s : RbTree) (node fuel : ℕ) : Option RbTree :=
  (insertColorLoop s node fuel).bind fun s => modifyNode s s.rbNode rbSetBlack

/-- `!node || rb_is_black(node)`. -/
def blackOrNull (s : RbTree) (node : ℕ) : Bool := node == 0 || rbIsBlack (s.nodes node)

/-- The first case of `__rb_erase_color`, which rotates a red sibling away: the tree and the
sibling. -/
def rotateSibling (side : Side) (s : RbTree) (parent other : ℕ) : Option (RbTree × ℕ) :=
  (load s other).bind fun o =>
  if rbIsRed o then
    (modifyNode s other rbSetBlack).bind fun s =>
    (modifyNode s parent rbSetRed).bind fun s =>
    (rotate side s parent).bind fun s =>
    (load s parent).map fun p => (s, p.child side.other)
  else some (s, other)

/-- The third case of `__rb_erase_color`, which rotates a red child of the sibling to the outer
side: the tree and the sibling. -/
def rotateNephew (side : Side) (s : RbTree) (parent other : ℕ) : Option (RbTree × ℕ) :=
  (load s other).bind fun o =>
  if blackOrNull s (o.child side.other) then
    (modifyNode s (o.child side) rbSetBlack).bind fun s =>
    (modifyNode s other rbSetRed).bind fun s =>
    (rotate side.other s other).bind fun s =>
    (load s parent).map fun p => (s, p.child side.other)
  else some (s, other)

/-- The last case of `__rb_erase_color`, which rotates the parent down. -/
def rotateParent (side : Side) (s : RbTree) (parent other : ℕ) : Option RbTree :=
  (load s parent).bind fun p =>
  (modifyNode s other (rbSetColor (rbColor p))).bind fun s =>
  (modifyNode s parent rbSetBlack).bind fun s =>
  (load s other).bind fun o =>
  (modifyNode s (o.child side.other) rbSetBlack).bind fun s =>
  rotate side s parent

/-- The body of the loop of `__rb_erase_color` for a node on `side` of its parent: the tree, the
node from which the loop goes on, its parent, and whether the loop is left. -/
def eraseColorStep (side : Side) (s : RbTree) (parent : ℕ) :
    Option (RbTree × ℕ × ℕ × Bool) :=
  (load s parent).bind fun p =>
  (rotateSibling side s parent (p.child side.other)).bind fun sibling =>
  (load sibling.1 sibling.2).bind fun o =>
  if blackOrNull sibling.1 o.rbLeft && blackOrNull sibling.1 o.rbRight then
    (modifyNode sibling.1 sibling.2 rbSetRed).bind fun s =>
    (load s parent).map fun p => (s, parent, rbParent p, false)
  else
    (rotateNephew side sibling.1 parent sibling.2).bind fun sibling =>
    (rotateParent side sibling.1 parent sibling.2).map fun s => (s, s.rbNode, parent, true)

/-- The loop of `__rb_erase_color`, with fuel: the tree and the node at which it ends. -/
def eraseColorLoop (s : RbTree) (node parent : ℕ) : ℕ → Option (RbTree × ℕ)
  | 0 => none
  | fuel + 1 =>
    if blackOrNull s node = true ∧ node ≠ s.rbNode then
      (load s parent).bind fun p =>
      let side := if p.rbLeft = node then Side.left else Side.right
      (eraseColorStep side s parent).bind fun next =>
        if next.2.2.2 then some (next.1, next.2.1)
        else eraseColorLoop next.1 next.2.1 next.2.2.1 fuel
    else some (s, node)

/-- `__rb_erase_color`. -/
def rbEraseColor (s : RbTree) (node parent fuel : ℕ) : Option RbTree :=
  (eraseColorLoop s node parent fuel).map fun r => modifySome r.1 r.2 rbSetBlack

/-- The loop of `rb_erase` and `rb_next` to the leftmost node below `node`, or of `rb_prev` to the
rightmost one, with fuel. -/
def descend (side : Side) (s : RbTree) (node : ℕ) : ℕ → Option ℕ
  | 0 => none
  | fuel + 1 =>
    (load s node).bind fun n =>
    let next := n.child side
    if next = 0 then some node else descend side s next fuel

/-- The part of `rb_erase` for a node with at most one child: the tree, the child, its parent and
the colour of the node. -/
def eraseOne (s : RbTree) (node child : ℕ) : Option (RbTree × ℕ × ℕ × ℕ) :=
  (load s node).map fun n =>
  let parent := rbParent n
  let color := rbColor n
  let s := modifySome s child (rbSetParent parent)
  (relink .left s parent node child, child, parent, color)

/-- The part of `rb_erase` that takes the next node out of the right child of `old`, whose parent
it is not. -/
def unlinkNext (s : RbTree) (old node child parent : ℕ) : Option RbTree :=
  let s := modifySome s child (rbSetParent parent)
  (modifyNode s parent (setChild .left child)).bind fun s =>
  (load s old).bind fun o =>
  (modifyNode s node (setChild .right o.rbRight)).bind fun s =>
  modifyNode s o.rbRight (rbSetParent node)

/-- The part of `rb_erase` that gives the next node the parent, the colour and the left child of
`old`. -/
def takePlace (s : RbTree) (old node : ℕ) : Option RbTree :=
  (load s old).bind fun o =>
  (modifyNode s node fun n => { n with rbParentColor := o.rbParentColor }).bind fun s =>
  (modifyNode s node (setChild .left o.rbLeft)).bind fun s =>
  modifyNode s o.rbLeft (rbSetParent node)

/-- The part of `rb_erase` for a node with two children: the tree, the child of the next node, its
parent and the colour of the next node. -/
def eraseTwo (s : RbTree) (old fuel : ℕ) : Option (RbTree × ℕ × ℕ × ℕ) :=
  (load s old).bind fun o =>
  (descend .left s o.rbRight fuel).bind fun node =>
  let s := relink .left s (rbParent o) old node
  (load s node).bind fun n =>
  let child := n.rbRight
  let parent := rbParent n
  let color := rbColor n
  (if parent = old then some (s, node)
    else (unlinkNext s old node child parent).map fun s => (s, parent)).bind fun moved =>
  (takePlace moved.1 old node).map fun s => (s, child, moved.2, color)

/-- `rb_erase`. -/
def rbErase (s : RbTree) (node fuel : ℕ) : Option RbTree :=
  (load s node).bind fun n =>
  (if n.rbLeft = 0 then eraseOne s node n.rbRight
    else if n.rbRight = 0 then eraseOne s node n.rbLeft
    else eraseTwo s node fuel).bind fun r =>
  if r.2.2.2 = 1 then rbEraseColor r.1 r.2.1 r.2.2.1 fuel else some r.1

/-- What `rb_link` points to. -/
inductive RbLink
  /-- The root. -/
  | root
  /-- A child of a node. -/
  | child (parent : ℕ) (side : Side)

/-- `rb_link_node`. -/
def rbLinkNode (s : RbTree) (node parent : ℕ) (rbLink : RbLink) : RbTree :=
  let s := store s node fun _ => ⟨parent, 0, 0⟩
  match rbLink with
  | .root => { s with rbNode := node }
  | .child p side => store s p (setChild side node)

/-- `rb_first` and `rb_last`, with fuel. -/
def rbEnd (side : Side) (s : RbTree) (fuel : ℕ) : Option ℕ :=
  if s.rbNode = 0 then some 0 else descend side s s.rbNode fuel

/-- `rb_first`. -/
def rbFirst : RbTree → ℕ → Option ℕ := rbEnd .left

/-- `rb_last`. -/
def rbLast : RbTree → ℕ → Option ℕ := rbEnd .right

/-- The loop of `rb_next` and `rb_prev` up to the first node that is not on `side` of its parent,
with fuel: that parent. -/
def ascend (side : Side) (s : RbTree) (node : ℕ) : ℕ → Option ℕ
  | 0 => none
  | fuel + 1 =>
    (load s node).bind fun n =>
    let parent := rbParent n
    if parent ≠ 0 ∧ node = (s.nodes parent).child side then ascend side s parent fuel
    else some parent

/-- `rb_next` and `rb_prev`, towards `side`, with fuel. -/
def neighbor (side : Side) (s : RbTree) (node fuel : ℕ) : Option ℕ :=
  (load s node).bind fun n =>
  if rbParent n = node then some 0
  else if n.child side ≠ 0 then descend side.other s (n.child side) fuel
  else ascend side s node fuel

/-- `rb_next`. -/
def rbNext : RbTree → ℕ → ℕ → Option ℕ := neighbor .right

/-- `rb_prev`. -/
def rbPrev : RbTree → ℕ → ℕ → Option ℕ := neighbor .left

/-- `rb_replace_node`. -/
def rbReplaceNode (s : RbTree) (victim new : ℕ) : Option RbTree :=
  (load s victim).bind fun v =>
  let s := relink .left s (rbParent v) victim new
  let s := modifySome s (s.nodes victim).rbLeft (rbSetParent new)
  let s := modifySome s (s.nodes victim).rbRight (rbSetParent new)
  modifyNode s new fun _ => s.nodes victim

/-- The loop of a caller over the nodes from `node` on with `rb_next` or `rb_prev`, with fuel: the
nodes it sees until it is given `NULL`. -/
def visitFrom (side : Side) (s : RbTree) (fuel : ℕ) : ℕ → ℕ → Option (List ℕ)
  | 0, _ => none
  | rounds + 1, node =>
    if node = 0 then some []
    else
      (neighbor side s node fuel).bind fun next =>
        (visitFrom side s fuel rounds next).map fun nodes => node :: nodes

/-- The nodes from `rb_first` on with `rb_next`, or from `rb_last` on with `rb_prev`. -/
def enumerate (side : Side) (s : RbTree) (fuel : ℕ) : Option (List ℕ) :=
  (rbEnd side.other s fuel).bind fun node => visitFrom side s fuel fuel node

/-- The loop `while(n)` of a caller down the tree, with fuel: a visit changes what the loop keeps
and names the child to go on with, or ends the loop; it may also not return. -/
def walk {σ : Type*} (s : RbTree) (visit : σ → ℕ → Option (σ × Option Side)) (kept : σ) (n : ℕ) :
    ℕ → Option σ
  | 0 => none
  | fuel + 1 =>
    if n = 0 then some kept
    else
      (visit kept n).bind fun r =>
        match r.2 with
        | none => some r.1
        | some side => walk s visit r.1 ((s.nodes n).child side) fuel

end BiscuitOS.RbtreeModel
