import BiscuitOS.RbtreeModel

/-!
# Trees held by memory

A memory holds a tree when each node of the tree has the words of its parent,
its colour and its children. The rules say how the tree changes when a node is
recoloured, rotated or given another parent.
-/

namespace BiscuitOS.RbtreeHeap

open ColorTree RbtreeModel

/-- The colour bit. -/
def bit : Color → ℕ
  | .red => 0
  | .black => 1

/-- The address of the root of a tree. -/
def top : ColoredTree ℕ → ℕ
  | .nil => 0
  | .node _ _ a _ => a

/-- A node has its parent, its colour and its children. -/
structure Linked (n : RbNode) (parent : ℕ) (c : Color) (side : Side) (near far : ℕ) : Prop where
  /-- Parent and colour share a word. -/
  word : n.rbParentColor = parent + bit c
  /-- The child on the side. -/
  near : n.child side = near
  /-- The other child. -/
  far : n.child side.other = far

/-- The memory holds a tree whose root has the given parent. -/
def Holds (nodes : ℕ → RbNode) (parent : ℕ) : ColoredTree ℕ → Prop
  | .nil => True
  | .node c l a r =>
    nodes a = ⟨parent + bit c, top r, top l⟩ ∧ Holds nodes a l ∧ Holds nodes a r

/-- The parent of the hole of a path below `parent`. -/
def above (parent : ℕ) : List (Frame ℕ) → ℕ
  | [] => parent
  | f :: _ => f.item

/-- The memory holds a path below `parent` with `hole` at its end. -/
def HoldsPath (nodes : ℕ → RbNode) (parent hole : ℕ) : List (Frame ℕ) → Prop
  | [] => True
  | f :: path =>
    Linked (nodes f.item) (above parent path) f.color f.side hole (top f.sibling) ∧
      Holds nodes f.item f.sibling ∧ HoldsPath nodes parent f.item path

/-- The items of a path. -/
def pathItems : List (Frame ℕ) → List ℕ
  | [] => []
  | f :: path => f.item :: (f.sibling.items ++ pathItems path)

variable {s : RbTree} {nodes nodes' : ℕ → RbNode} {p q a b x hole n : ℕ} {side : Side} {c c' : Color}
  {t u near mid far T : ColoredTree ℕ} {path : List (Frame ℕ)}

/-- The words of a node seen from a side. -/
theorem linked_branch {n : RbNode} :
    Linked n p c side (top near) (top far) ↔
      n = match side with
        | .left => ⟨p + bit c, top far, top near⟩
        | .right => ⟨p + bit c, top near, top far⟩ := by
  obtain ⟨w, r, l⟩ := n
  constructor
  · rintro ⟨rfl, hn, hf⟩
    cases side <;> simp only [Side.other, RbNode.child] at hn hf <;> rw [hn, hf]
  · intro h
    cases side <;> cases h <;> exact ⟨rfl, rfl, rfl⟩

/-- A tree seen from a side. -/
theorem holds_branch {d : Side} :
    Holds nodes p (branch d c near a far) ↔
      Linked (nodes a) p c d (top near) (top far) ∧ Holds nodes a near ∧ Holds nodes a far := by
  rw [linked_branch]
  cases d with
  | left => rfl
  | right => exact and_congr_right fun _ => and_comm

/-- The root of a tree seen from a side. -/
@[simp] theorem top_branch : top (branch side c near a far) = a := by
  cases side <;> rfl

/-- A tree with a hole is held in two parts. -/
theorem holds_plug (t : ColoredTree ℕ) (path : List (Frame ℕ)) :
    Holds nodes p (plug t path) ↔
      Holds nodes (above p path) t ∧ HoldsPath nodes p (top t) path := by
  induction path generalizing t with
  | nil => exact (and_iff_left trivial).symm
  | cons f path ih =>
    rw [plug, ih, Frame.fill, holds_branch, top_branch]
    constructor
    · rintro ⟨⟨h1, h2, h3⟩, h4⟩
      exact ⟨h2, h1, h3, h4⟩
    · rintro ⟨h2, h1, h3, h4⟩
      exact ⟨⟨h1, h2, h3⟩, h4⟩

/-- The root is an item. -/
theorem top_mem (h : top t ≠ 0) : top t ∈ t.items := by
  cases t with
  | nil => exact absurd rfl h
  | node c l a r => exact List.mem_append_right _ List.mem_cons_self

/-- The parent of a hole is an item of the path. -/
theorem above_mem (h : above 0 path ≠ 0) : above 0 path ∈ pathItems path := by
  cases path with
  | nil => exact absurd rfl h
  | cons f path => exact List.mem_cons_self

/-- The items of a node. -/
theorem items_branch {d : Side} :
    (branch d c near a far).items.Perm (a :: (near.items ++ far.items)) := by
  cases d with
  | left => exact List.perm_middle
  | right => exact List.perm_middle.trans (List.perm_append_comm.cons a)

/-- The items on the sides of a hole are those of the path. -/
theorem items_path (path : List (Frame ℕ)) : (before path ++ after path).Perm (pathItems path) := by
  induction path with
  | nil => exact List.Perm.refl _
  | cons f path ih =>
    rw [before, after, pathItems]
    cases f.side with
    | left =>
      refine List.perm_middle.trans (List.Perm.cons _ ?_)
      rw [← List.append_assoc]
      exact (List.perm_append_comm.append_right _).trans
        (by rw [List.append_assoc]; exact ih.append_left _)
    | right =>
      dsimp only
      have h1 : (before path ++ (f.sibling.items ++ [f.item]) ++ after path).Perm
          (f.sibling.items ++ [f.item] ++ (before path ++ after path)) := by
        rw [← List.append_assoc _ (before path)]
        exact List.perm_append_comm.append_right _
      refine h1.trans ?_
      rw [List.append_assoc, List.singleton_append]
      exact List.perm_middle.trans ((ih.append_left _).cons _)

/-- The items of a tree with a hole. -/
theorem perm_plug (t : ColoredTree ℕ) (path : List (Frame ℕ)) :
    (plug t path).items.Perm (t.items ++ pathItems path) := by
  rw [items_plug, ← List.append_assoc]
  exact (List.perm_append_comm.append_right _).trans
    (by rw [List.append_assoc]; exact (items_path path).append_left _)

/-- The memory of the items alone holds a tree. -/
theorem Holds.congr (h : Holds nodes p t) (he : ∀ x ∈ t.items, nodes' x = nodes x) :
    Holds nodes' p t := by
  induction t generalizing p with
  | nil => trivial
  | node c l a r ihl ihr =>
    obtain ⟨h1, h2, h3⟩ := h
    refine ⟨?_, ihl h2 fun x hx => ?_, ihr h3 fun x hx => ?_⟩
    · rw [he a (List.mem_append_right _ List.mem_cons_self), h1]
    · exact he x (List.mem_append_left _ hx)
    · exact he x (List.mem_append_right _ (List.mem_cons_of_mem _ hx))

/-- The memory of the items alone holds a path. -/
theorem HoldsPath.congr (h : HoldsPath nodes p hole path)
    (he : ∀ x ∈ pathItems path, nodes' x = nodes x) : HoldsPath nodes' p hole path := by
  induction path generalizing hole with
  | nil => trivial
  | cons f path ih =>
    obtain ⟨h1, h2, h3⟩ := h
    refine ⟨?_, h2.congr fun x hx => ?_, ih h3 fun x hx => ?_⟩
    · rw [he _ List.mem_cons_self]
      exact h1
    · exact he x (List.mem_cons_of_mem _ (List.mem_append_left _ hx))
    · exact he x (List.mem_cons_of_mem _ (List.mem_append_right _ hx))

/-- A node stored. -/
@[simp] theorem store_self (s : RbTree) (a : ℕ) (f : RbNode → RbNode) :
    (store s a f).nodes a = f (s.nodes a) := Function.update_self _ _ _

/-- The other nodes. -/
theorem store_other (f : RbNode → RbNode) (h : x ≠ a) : (store s a f).nodes x = s.nodes x :=
  Function.update_of_ne h _ _

/-- The root is not stored in a node. -/
@[simp] theorem store_root (s : RbTree) (a : ℕ) (f : RbNode → RbNode) :
    (store s a f).rbNode = s.rbNode := rfl

/-- Reading a node. -/
theorem load_node (h : a ≠ 0) : load s a = some (s.nodes a) := if_neg h

/-- Changing a node. -/
theorem modify_node (f : RbNode → RbNode) (h : a ≠ 0) : modifyNode s a f = some (store s a f) :=
  if_neg h

/-- Changing the root of a tree leaves the other nodes. -/
theorem modifySome_other (f : RbNode → RbNode) (h : x ∉ t.items) :
    (modifySome s (top t) f).nodes x = s.nodes x := by
  rw [modifySome]
  split
  · rfl
  · rename_i h0
    exact store_other f fun hx => h (hx ▸ top_mem h0)

/-- The root is not a node. -/
@[simp] theorem modifySome_root (f : RbNode → RbNode) : (modifySome s a f).rbNode = s.rbNode := by
  rw [modifySome]
  split <;> rfl

/-- The parent in the word. -/
theorem Linked.parent {n : RbNode} {l r : ℕ} (h : Linked n p c side l r) (hp : p % 4 = 0) :
    rbParent n = p := by
  rw [rbParent, h.word]
  cases c <;> simp only [bit] <;> omega

/-- The colour in the word. -/
theorem Linked.color {n : RbNode} {l r : ℕ} (h : Linked n p c side l r) (hp : p % 4 = 0) :
    rbColor n = bit c := by
  rw [rbColor, h.word]
  cases c <;> simp only [bit] <;> omega

/-- A red node. -/
theorem Linked.isRed {n : RbNode} {l r : ℕ} (h : Linked n p c side l r) (hp : p % 4 = 0) :
    rbIsRed n = decide (c = .red) := by
  rw [rbIsRed, h.color hp]
  cases c <;> rfl

/-- A multiple of four and a small number have no bit in common. -/
theorem or_aligned (hp : p % 4 = 0) {k : ℕ} (hk : k < 4) : k ||| p = p + k := by
  obtain ⟨m, rfl⟩ : ∃ m, p = 2 ^ 2 * m := ⟨p / 4, by omega⟩
  rw [Nat.or_comm, Nat.two_pow_add_eq_or_of_lt hk m]

/-- Children do not depend on the word of the parent. -/
theorem child_word (n : RbNode) (w : ℕ) (side : Side) :
    ({ n with rbParentColor := w } : RbNode).child side = n.child side := by
  cases side <;> rfl

/-- A node with another parent. -/
theorem Linked.setParent {n : RbNode} {l r : ℕ} (h : Linked n p c side l r) (hp : p % 4 = 0)
    (hq : q % 4 = 0) : Linked (rbSetParent q n) q c side l r where
  word := by
    rw [rbSetParent, h.word, or_aligned hq (Nat.mod_lt _ (by decide))]
    cases c <;> simp only [bit] <;> omega
  near := by rw [rbSetParent, child_word, h.near]
  far := by rw [rbSetParent, child_word, h.far]

/-- A node with another colour. -/
theorem Linked.setColor {n : RbNode} {l r : ℕ} (h : Linked n p c side l r) (hp : p % 4 = 0) :
    Linked (rbSetColor (bit c') n) p c' side l r where
  word := by
    rw [rbSetColor, h.word]
    have he : (p + bit c) / 2 * 2 = p := by
      cases c <;> simp only [bit] <;> omega
    rw [he, Nat.or_comm, or_aligned hp (by cases c' <;> decide)]
  near := by rw [rbSetColor, child_word, h.near]
  far := by rw [rbSetColor, child_word, h.far]

/-- A node set red. -/
theorem Linked.setRed {n : RbNode} {l r : ℕ} (h : Linked n p c side l r) (hp : p % 4 = 0) :
    Linked (rbSetRed n) p .red side l r where
  word := by
    rw [rbSetRed, h.word]
    cases c <;> simp only [bit] <;> omega
  near := by rw [rbSetRed, child_word, h.near]
  far := by rw [rbSetRed, child_word, h.far]

/-- A node set black. -/
theorem Linked.setBlack {n : RbNode} {l r : ℕ} (h : Linked n p c side l r) (hp : p % 4 = 0) :
    Linked (rbSetBlack n) p .black side l r where
  word := by
    have h1 : 1 ||| p = p + 1 := or_aligned hp (by decide)
    rw [rbSetBlack, h.word, bit, ← h1]
    cases c with
    | red => rw [bit, Nat.add_zero, Nat.or_comm]
    | black => rw [bit, ← h1, Nat.or_comm, ← Nat.or_assoc, Nat.or_self]
  near := by rw [rbSetBlack, child_word, h.near]
  far := by rw [rbSetBlack, child_word, h.far]

/-- The children of a node with another child. -/
theorem Linked.setChild {n : RbNode} {l r : ℕ} (h : Linked n p c side l r) (l' : ℕ) :
    Linked (setChild side l' n) p c side l' r := by
  obtain ⟨hw, -, hf⟩ := h
  cases side <;> exact ⟨hw, rfl, hf⟩

/-- A node seen from its other side. -/
theorem Linked.other {n : RbNode} {l r : ℕ} (h : Linked n p c side l r) :
    Linked n p c side.other r l :=
  ⟨h.word, h.far, by rw [Side.other_other]; exact h.near⟩

/-- The function gives a node another colour and keeps its other words. -/
def Recolors (f : RbNode → RbNode) (c' : Color) : Prop :=
  ∀ (n : RbNode) (p : ℕ) (c : Color) (side : Side) (l r : ℕ), p % 4 = 0 →
    Linked n p c side l r → Linked (f n) p c' side l r

/-- `rb_set_red` recolours. -/
theorem recolors_red : Recolors rbSetRed .red := fun _ _ _ _ _ _ hp h => h.setRed hp

/-- `rb_set_black` recolours. -/
theorem recolors_black : Recolors rbSetBlack .black := fun _ _ _ _ _ _ hp h => h.setBlack hp

/-- `rb_set_color` recolours. -/
theorem recolors_color (c : Color) : Recolors (rbSetColor (bit c)) c :=
  fun _ _ _ _ _ _ hp h => h.setColor hp

/-- The memory and its root hold a tree of different nodes at aligned addresses. -/
structure Rep (s : RbTree) (T : ColoredTree ℕ) : Prop where
  /-- The root pointer. -/
  root : s.rbNode = top T
  /-- The nodes. -/
  holds : Holds s.nodes 0 T
  /-- No node occurs twice. -/
  nodup : T.items.Nodup
  /-- Nodes are not `NULL`, and their two low bits are free. -/
  aligned : ∀ a ∈ T.items, a ≠ 0 ∧ a % 4 = 0

/-- A tree held in two parts. -/
structure RepAt (s : RbTree) (t : ColoredTree ℕ) (path : List (Frame ℕ)) : Prop where
  /-- The root pointer. -/
  root : s.rbNode = top (plug t path)
  /-- The nodes of the tree in the hole. -/
  tree : Holds s.nodes (above 0 path) t
  /-- The nodes of the path. -/
  parents : HoldsPath s.nodes 0 (top t) path
  /-- No node occurs twice. -/
  nodup : (t.items ++ pathItems path).Nodup
  /-- Nodes are not `NULL`, and their two low bits are free. -/
  aligned : ∀ a ∈ t.items ++ pathItems path, a ≠ 0 ∧ a % 4 = 0

/-- A tree is held when its parts are. -/
theorem rep_plug : Rep s (plug t path) ↔ RepAt s t path := by
  have hperm := perm_plug t path
  constructor
  · rintro ⟨h1, h2, h3, h4⟩
    obtain ⟨h5, h6⟩ := (holds_plug t path).mp h2
    exact ⟨h1, h5, h6, hperm.nodup_iff.mp h3, fun a ha => h4 a (hperm.mem_iff.mpr ha)⟩
  · rintro ⟨h1, h2, h3, h4, h5⟩
    exact ⟨h1, (holds_plug t path).mpr ⟨h2, h3⟩, hperm.nodup_iff.mpr h4,
      fun a ha => h5 a (hperm.mem_iff.mp ha)⟩

/-- The parent of a hole is aligned. -/
theorem RepAt.above (h : RepAt s t path) : above 0 path % 4 = 0 := by
  by_cases h0 : RbtreeHeap.above 0 path = 0
  · rw [h0]
  · exact (h.aligned _ (List.mem_append_right _ (above_mem h0))).2

/-- The root of a subtree in a hole. -/
theorem RepAt.branch (h : RepAt s (branch side c near a far) path) :
    Linked (s.nodes a) (RbtreeHeap.above 0 path) c side (top near) (top far) ∧
      Holds s.nodes a near ∧ Holds s.nodes a far := holds_branch.mp h.tree

/-- The nodes of a subtree in a hole are apart. -/
theorem RepAt.apart (h : RepAt s (ColorTree.branch side c near a far) path) :
    (a :: (near.items ++ far.items ++ pathItems path)).Nodup :=
  (items_branch.append_right _).nodup_iff.mp h.nodup

/-- The root of a subtree is aligned. -/
theorem RepAt.node_aligned (h : RepAt s (ColorTree.branch side c near a far) path) :
    a ≠ 0 ∧ a % 4 = 0 :=
  h.aligned a (List.mem_append_left _ (items_branch.mem_iff.mpr List.mem_cons_self))

/-- The root above a hole does not depend on what fills it. -/
theorem top_plug (h : top t = top u) (path : List (Frame ℕ)) :
    top (plug t path) = top (plug u path) := by
  induction path generalizing t u with
  | nil => exact h
  | cons f path ih => exact ih (by rw [Frame.fill, Frame.fill, top_branch, top_branch])

/-- A parent gets another child in the hole. -/
theorem HoldsPath.refill {f : Frame ℕ} (h : HoldsPath s.nodes p hole (f :: path))
    (hnodup : (pathItems (f :: path)).Nodup) (new : ℕ) :
    HoldsPath (store s f.item (RbtreeModel.setChild f.side new)).nodes p new (f :: path) := by
  obtain ⟨h1, h2, h3⟩ := h
  obtain ⟨hf, -⟩ := List.nodup_cons.mp hnodup
  refine ⟨?_, h2.congr fun x hx => store_other _ ?_, h3.congr fun x hx => store_other _ ?_⟩
  · rw [store_self]
    exact h1.setChild new
  · exact fun he => hf (List.mem_append_left _ (he ▸ hx))
  · exact fun he => hf (List.mem_append_right _ (he ▸ hx))

/-- A parent with its child on the path replaced. -/
theorem relink_holds {old new : ℕ} (h : HoldsPath s.nodes 0 old path)
    (hnodup : (pathItems path).Nodup) (hne : ∀ a ∈ pathItems path, a ≠ 0) (h0 : old ≠ 0)
    (hold : old ∉ pathItems path) :
    HoldsPath (relink side s (above 0 path) old new).nodes 0 new path := by
  cases path with
  | nil => trivial
  | cons f path =>
    have hset := h.refill hnodup new
    obtain ⟨h1, h2, h3⟩ := h
    have hfar : top f.sibling ≠ old := fun he =>
      hold (List.mem_cons_of_mem _ (List.mem_append_left _ (he ▸ top_mem (he ▸ h0))))
    rw [above, relink, if_neg (hne _ List.mem_cons_self)]
    by_cases hside : f.side = side
    · rw [if_pos (by rw [← hside]; exact h1.near), ← hside]
      exact hset
    · have hother : f.side = side.other := by
        cases side <;> cases hs : f.side <;> simp_all [Side.other]
      rw [if_neg (by rw [← Side.other_other side, ← hother, h1.far]; exact hfar), ← hother]
      exact hset

/-- Nodes off the path of a replaced child. -/
theorem relink_other {old new : ℕ} (h : x ∉ pathItems path) :
    (relink side s (above 0 path) old new).nodes x = s.nodes x := by
  rw [relink]
  split
  · rfl
  · rename_i h0
    have hx : x ≠ above 0 path := fun he => h (he ▸ above_mem h0)
    split
    · exact store_other _ hx
    · exact store_other _ hx

/-- The root after a child is replaced. -/
theorem relink_root (side : Side) (u : ColoredTree ℕ) (h : s.rbNode = top (plug t path))
    (hne : ∀ a ∈ pathItems path, a ≠ 0) (old : ℕ) : (relink side s (above 0 path) old (top u)).rbNode = top (plug u path) := by
  cases path with
  | nil => rfl
  | cons f path =>
    have hroot : (relink side s f.item old (top u)).rbNode = s.rbNode := by
      rw [relink, if_neg (hne _ List.mem_cons_self)]
      split <;> rfl
    rw [above, hroot, h]
    exact top_plug (by rw [Frame.fill, Frame.fill, top_branch, top_branch]) path

/-- A tree whose root gets another parent. -/
theorem Holds.adopt (h : Holds s.nodes p t) (hnodup : t.items.Nodup)
    (hne : ∀ a ∈ t.items, a ≠ 0) (hp : p % 4 = 0) (hq : q % 4 = 0) :
    Holds (modifySome s (top t) (rbSetParent q)).nodes q t := by
  cases t with
  | nil => trivial
  | node c l a r =>
    have ha : a ∉ l.items ++ r.items :=
      (List.nodup_cons.mp (items_branch (d := .left).nodup_iff.mp hnodup)).1
    have hn : top (.node c l a r) ≠ 0 := hne a (List.mem_append_right _ List.mem_cons_self)
    obtain ⟨h1, h2, h3⟩ := (holds_branch (d := .left)).mp h
    rw [modifySome, if_neg hn]
    refine (holds_branch (d := .left)).mpr ⟨?_, h2.congr fun x hx => store_other _ ?_,
      h3.congr fun x hx => store_other _ ?_⟩
    · exact (store_self s a _).symm ▸ h1.setParent hp hq
    · exact fun he => ha (List.mem_append_left _ ((show x = a from he) ▸ hx))
    · exact fun he => ha (List.mem_append_right _ ((show x = a from he) ▸ hx))

/-- Recolouring the root of a subtree. -/
theorem Rep.recolor (path : List (Frame ℕ)) {f : RbNode → RbNode} (hf : Recolors f c')
    (h : Rep s (plug (branch side c near a far) path)) :
    ∃ s', modifyNode s a f = some s' ∧ Rep s' (plug (branch side c' near a far) path) := by
  have h := rep_plug.mp h
  obtain ⟨h1, h2, h3⟩ := h.branch
  obtain ⟨hout, -⟩ := List.nodup_cons.mp h.apart
  have hother : ∀ x ∈ near.items ++ far.items ++ pathItems path,
      (store s a f).nodes x = s.nodes x := fun x hx => store_other f fun he => hout (he ▸ hx)
  have hitems : (branch side c' near a far).items = (branch side c near a far).items := items_recolor
  refine ⟨store s a f, modify_node f h.node_aligned.1, rep_plug.mpr ⟨?_, ?_, ?_, ?_, ?_⟩⟩
  · rw [store_root, h.root]
    exact top_plug (by rw [top_branch, top_branch]) path
  · refine holds_branch.mpr ⟨?_, h2.congr fun x hx => hother x ?_, h3.congr fun x hx => hother x ?_⟩
    · rw [store_self]
      exact hf _ _ _ _ _ _ h.above h1
    · exact List.mem_append_left _ (List.mem_append_left _ hx)
    · exact List.mem_append_left _ (List.mem_append_right _ hx)
  · have hpath := h.parents
    rw [top_branch] at hpath ⊢
    exact hpath.congr fun x hx => hother x (List.mem_append_right _ hx)
  · rw [hitems]
    exact h.nodup
  · rw [hitems]
    exact h.aligned

/-- A rotation of memory rotates the tree. -/
theorem Rep.rotate (h : Rep s (plug (branch side c near a (branch side c' mid b far)) path)) :
    ∃ s', rotate side s a = some s' ∧
      Rep s' (plug (branch side c' (branch side c near a mid) b far) path) := by
  have hitems : (plug (branch side c' (branch side c near a mid) b far) path).items =
      (plug (branch side c near a (branch side c' mid b far)) path).items :=
    items_plug_congr items_rotate path
  have hrep := h
  have h := rep_plug.mp h
  obtain ⟨ha, hnear, hb⟩ := h.branch
  obtain ⟨hb, hmid, hfar⟩ := holds_branch.mp hb
  have hpath := h.parents
  rw [top_branch] at ha hpath
  obtain ⟨ha0, ha4⟩ := h.node_aligned
  have habove := h.above
  have hperm : ((branch side c near a (branch side c' mid b far)).items ++ pathItems path).Perm
      (a :: (near.items ++ (b :: (mid.items ++ far.items)) ++ pathItems path)) :=
    (items_branch.trans ((items_branch.append_left _).cons a)).append_right _
  have hal : ∀ x ∈ a :: (near.items ++ (b :: (mid.items ++ far.items)) ++ pathItems path),
      x ≠ 0 ∧ x % 4 = 0 := fun x hx => h.aligned x (hperm.mem_iff.mpr hx)
  have hnd := hperm.nodup_iff.mp h.nodup
  have hb04 : b ≠ 0 ∧ b % 4 = 0 := hal b (by simp)
  have hmid0 : ∀ x ∈ mid.items, x ≠ 0 := fun x hx => (hal x (by simp [hx])).1
  have hpath0 : ∀ x ∈ pathItems path, x ≠ 0 := fun x hx => (hal x (by simp [hx])).1
  simp only [List.nodup_cons, List.nodup_append, List.mem_append, List.mem_cons, not_or] at hnd
  obtain ⟨⟨⟨han, hab, ham, haf⟩, hap⟩, ⟨hnn, ⟨⟨hbm, hbf⟩, hmn, hfn, hmf⟩, hnbmf⟩, hpn, hnp⟩ := hnd
  have hload : load s a = some (s.nodes a) := load_node ha0
  have hload' : load s b = some (s.nodes b) := load_node hb04.1
  have hroot := hrep.root
  generalize h1 : store s a (RbtreeModel.setChild side.other (top mid)) = s1
  generalize h2 : modifySome s1 (top mid) (rbSetParent a) = s2
  generalize h3 : store s2 b (RbtreeModel.setChild side a) = s3
  generalize h4 : store s3 b (rbSetParent (RbtreeHeap.above 0 path)) = s4
  generalize h5 : relink side s4 (RbtreeHeap.above 0 path) a b = s5
  refine ⟨store s5 a (rbSetParent b), ?_, ?_⟩
  · rw [RbtreeModel.rotate]
    simp only [hload, hload', Option.bind_some, ha.far, hb.near, ha.parent habove, h1, h2, h3, h4,
      h5, modify_node _ ha0]
  have e1 : ∀ x, x ≠ a → s1.nodes x = s.nodes x := fun x hx => h1 ▸ store_other _ hx
  have e2 : ∀ x, x ∉ mid.items → s2.nodes x = s1.nodes x := fun x hx => h2 ▸ modifySome_other _ hx
  have e4 : ∀ x, x ≠ b → s4.nodes x = s2.nodes x := fun x hx => by
    rw [← h4, store_other _ hx, ← h3, store_other _ hx]
  have e5 : ∀ x, x ∉ pathItems path → s5.nodes x = s4.nodes x := fun x hx => h5 ▸ relink_other hx
  have e6 : ∀ x, x ≠ a → (store s5 a (rbSetParent b)).nodes x = s5.nodes x := fun x hx =>
    store_other _ hx
  have ebelow : ∀ x, x ≠ a → x ≠ b → x ∉ mid.items → x ∉ pathItems path →
      (store s5 a (rbSetParent b)).nodes x = s.nodes x := fun x hxa hxb hxm hxp => by
    rw [e6 x hxa, e5 x hxp, e4 x hxb, e2 x hxm, e1 x hxa]
  have hna : (store s5 a (rbSetParent b)).nodes a =
      rbSetParent b (RbtreeModel.setChild side.other (top mid) (s.nodes a)) := by
    rw [store_self, e5 a hap, e4 a hab, e2 a ham, ← h1, store_self]
  have hnb : (store s5 a (rbSetParent b)).nodes b =
      rbSetParent (RbtreeHeap.above 0 path) (RbtreeModel.setChild side a (s.nodes b)) := by
    rw [e6 b (Ne.symm hab), e5 b fun hm => hnp b (Or.inr (Or.inl rfl)) b hm rfl, ← h4, store_self,
      ← h3, store_self, e2 b hbm, e1 b (Ne.symm hab)]
  refine rep_plug.mpr ⟨?_, ?_, ?_, ?_, ?_⟩
  · have hroot4 : s4.rbNode = s.rbNode := by
      rw [← h4, store_root, ← h3, store_root, ← h2, modifySome_root, ← h1, store_root]
    have hnew := relink_root side (branch side c' (branch side c near a mid) b far)
      (hroot4.trans hroot) hpath0 a
    rw [top_branch, h5] at hnew
    exact hnew
  · refine holds_branch.mpr ⟨?_, holds_branch.mpr ⟨?_, ?_, ?_⟩, ?_⟩
    · rw [hnb, top_branch]
      exact (hb.setChild a).setParent ha4 habove
    · rw [hna]
      have hset := (ha.other.setChild (top mid)).other.setParent habove hb04.2
      rwa [Side.other_other] at hset
    · refine hnear.congr fun x hx => ebelow x ?_ ?_ ?_ ?_
      · exact fun he => han (he ▸ hx)
      · exact fun he => hnbmf x hx b (Or.inl rfl) he
      · exact fun hm => hnbmf x hx x (Or.inr (Or.inl hm)) rfl
      · exact fun hm => hnp x (Or.inl hx) x hm rfl
    · have hadopt : Holds s2.nodes a mid := by
        rw [← h2]
        refine Holds.adopt (hmid.congr fun x hx => e1 x fun he => ham (he ▸ hx)) hmn hmid0
          hb04.2 ha4
      refine hadopt.congr fun x hx => ?_
      rw [e6 x fun he => ham (he ▸ hx), e5 x fun hm => hnp x (Or.inr (Or.inr (Or.inl hx))) x hm rfl,
        e4 x fun he => hbm (he ▸ hx)]
    · refine hfar.congr fun x hx => ebelow x ?_ ?_ ?_ ?_
      · exact fun he => haf (he ▸ hx)
      · exact fun he => hbf (he ▸ hx)
      · exact fun hm => hmf x hm x hx rfl
      · exact fun hm => hnp x (Or.inr (Or.inr (Or.inr hx))) x hm rfl
  · have hpath4 : HoldsPath s4.nodes 0 a path := hpath.congr fun x hx => by
      rw [e4 x fun he => hnp b (Or.inr (Or.inl rfl)) x hx he.symm,
        e2 x fun hm => hnp x (Or.inr (Or.inr (Or.inl hm))) x hx rfl, e1 x fun he => hap (he ▸ hx)]
    have hpath5 : HoldsPath s5.nodes 0 b path := by
      rw [← h5]
      exact relink_holds hpath4 hpn hpath0 ha0 hap
    rw [top_branch]
    exact hpath5.congr fun x hx => e6 x fun he => hap (he ▸ hx)
  · rw [items_rotate]
    exact h.nodup
  · rw [items_rotate]
    exact h.aligned

/-- The words of the root of a subtree. -/
theorem Rep.linked (h : Rep s (plug (branch side c near a far) path)) :
    Linked (s.nodes a) (above 0 path) c side (top near) (top far) :=
  (rep_plug.mp h).branch.1

/-- Reading the root of a subtree. -/
theorem Rep.load (h : Rep s (plug (branch side c near a far) path)) :
    load s a = some (s.nodes a) :=
  load_node (rep_plug.mp h).node_aligned.1

/-- The parent of the root of a subtree. -/
theorem Rep.parent (h : Rep s (plug (branch side c near a far) path)) :
    rbParent (s.nodes a) = above 0 path :=
  h.linked.parent (rep_plug.mp h).above

/-- The root of a subtree is red. -/
theorem Rep.isRed (h : Rep s (plug (branch side c near a far) path)) :
    rbIsRed (s.nodes a) = decide (c = .red) :=
  h.linked.isRed (rep_plug.mp h).above

/-- Testing a tree for a black root. -/
theorem Rep.blackOrNull (h : Rep s (plug t path)) (hb : Balanced c n t) :
    blackOrNull s (top t) = decide (c = .black) := by
  cases hb with
  | nil => rfl
  | red hl hr =>
    have h : Rep s (plug (branch .left .red _ _ _) path) := h
    rw [RbtreeModel.blackOrNull, rbIsBlack, top, h.linked.color (rep_plug.mp h).above]
    have h0 := (rep_plug.mp h).node_aligned.1
    simpa [bit] using h0
  | black hl hr =>
    have h : Rep s (plug (branch .left .black _ _ _) path) := h
    rw [RbtreeModel.blackOrNull, rbIsBlack, top, h.linked.color (rep_plug.mp h).above]
    simp [bit]

/-- Testing a tree for a red root. -/
theorem Rep.redNode (h : Rep s (plug t path)) (hb : Balanced c n t) :
    (top t ≠ 0 ∧ rbIsRed (s.nodes (top t)) = true) ↔ c = .red := by
  have hblack := h.blackOrNull hb
  rw [RbtreeModel.blackOrNull, rbIsBlack] at hblack
  rw [rbIsRed]
  by_cases h0 : top t = 0 <;> cases c <;> simp_all

/-- The two children of a node differ. -/
theorem Rep.near_ne_far (h : Rep s (plug (branch side c near a far) path)) (h0 : top near ≠ 0) :
    top far ≠ top near := fun he => by
  have hd := (rep_plug.mp h).apart
  rw [List.nodup_cons, List.nodup_append, List.nodup_append] at hd
  exact hd.2.1.2.2 _ (top_mem h0) _ (top_mem (he ▸ h0)) he.symm

/-- The side on which a child is found. -/
theorem Rep.sideOf (h : Rep s (plug (branch side c near a far) path)) (hne : top near ≠ top far) :
    (if top near = (s.nodes a).rbLeft then Side.left else Side.right) = side := by
  have hl := h.linked
  cases side with
  | left => exact if_pos hl.near.symm
  | right => exact if_neg fun he => hne (he.trans hl.far)

end BiscuitOS.RbtreeHeap
