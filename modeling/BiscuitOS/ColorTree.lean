import Mathlib

/-!
# Red-black trees with a hole

Binary trees with coloured nodes, and the paths from a hole up to the root.
A path fits a tree of a colour and a black height when filling its hole gives
a red-black tree.
-/

namespace BiscuitOS.ColorTree

/-- Colours of nodes. -/
inductive Color
  /-- Red. -/
  | red
  /-- Black. -/
  | black
  deriving DecidableEq

/-- The two children of a node. -/
inductive Side
  /-- Left. -/
  | left
  /-- Right. -/
  | right
  deriving DecidableEq

/-- The opposite side. -/
def Side.other : Side → Side
  | .left => .right
  | .right => .left

/-- The opposite of the opposite side. -/
@[simp] theorem Side.other_other (side : Side) : side.other.other = side := by
  cases side <;> rfl

/-- Binary trees of items with colours. -/
inductive ColoredTree (α : Type*)
  /-- The empty tree. -/
  | nil
  /-- A node between two trees. -/
  | node (color : Color) (left : ColoredTree α) (item : α) (right : ColoredTree α)

variable {α : Type*} {c c' : Color} {n : ℕ} {t u near mid far : ColoredTree α} {a b : α} {side : Side}

/-- The items from left to right. -/
def ColoredTree.items : ColoredTree α → List α
  | nil => []
  | node _ l a r => l.items ++ a :: r.items

/-- A node with the tree `near` on one side. -/
def branch (side : Side) (c : Color) (near : ColoredTree α) (a : α) (far : ColoredTree α) : ColoredTree α :=
  match side with
  | .left => .node c near a far
  | .right => .node c far a near

/-- A node seen from its other side. -/
theorem branch_other {d : Side} : branch d.other c near a far = branch d c far a near := by
  cases d <;> rfl

/-- A rotation keeps the order of the items. -/
theorem items_rotate :
    (branch side c' (branch side c near a mid) b far).items =
      (branch side c near a (branch side c' mid b far)).items := by
  cases side <;> simp only [branch, ColoredTree.items, List.append_assoc, List.cons_append]

/-- The colour of a node does not move its items. -/
theorem items_recolor : (branch side c near a far).items = (branch side c' near a far).items := by
  cases side <;> rfl

/-- One step from a hole to the root. -/
structure Frame (α : Type*) where
  /-- The side on which the hole is. -/
  side : Side
  /-- The colour of the parent. -/
  color : Color
  /-- The item of the parent. -/
  item : α
  /-- The other child of the parent. -/
  sibling : ColoredTree α

/-- Fill the hole of a frame. -/
def Frame.fill (f : Frame α) (t : ColoredTree α) : ColoredTree α := branch f.side f.color t f.item f.sibling

/-- Fill the hole at the end of a path. -/
def plug (t : ColoredTree α) : List (Frame α) → ColoredTree α
  | [] => t
  | f :: path => plug (f.fill t) path

/-- The items on the left of a hole. -/
def before : List (Frame α) → List α
  | [] => []
  | f :: path =>
    match f.side with
    | .left => before path
    | .right => before path ++ (f.sibling.items ++ [f.item])

/-- The items on the right of a hole. -/
def after : List (Frame α) → List α
  | [] => []
  | f :: path =>
    match f.side with
    | .left => f.item :: (f.sibling.items ++ after path)
    | .right => after path

/-- Filling a hole puts the items between those on its sides. -/
theorem items_plug (t : ColoredTree α) (path : List (Frame α)) :
    (plug t path).items = before path ++ (t.items ++ after path) := by
  induction path generalizing t with
  | nil => simp only [plug, before, after, List.nil_append, List.append_nil]
  | cons f path ih =>
    obtain ⟨side, c, a, sibling⟩ := f
    rw [plug, ih]
    cases side <;>
      simp only [Frame.fill, branch, ColoredTree.items, before, after, List.append_assoc,
        List.cons_append, List.nil_append]

/-- Paths in a row. -/
theorem plug_append (t : ColoredTree α) (p q : List (Frame α)) : plug t (p ++ q) = plug (plug t p) q := by
  induction p generalizing t with
  | nil => rfl
  | cons f p ih => exact ih (f.fill t)

/-- Trees with the same items fill a hole with the same items. -/
theorem items_plug_congr (h : t.items = u.items) (path : List (Frame α)) :
    (plug t path).items = (plug u path).items := by
  rw [items_plug, items_plug, h]

/-- The path to the last node on a side: that node has no child on the side. -/
theorem exists_end (side : Side) (c : Color) (l : ColoredTree α) (a : α) (r : ColoredTree α) :
    ∃ c' b far path, ColoredTree.node c l a r = plug (branch side c' .nil b far) path ∧
      ∀ f ∈ path, f.side = side := by
  have hbranch : ∀ (t : ColoredTree α) (c : Color) (a : α) (far : ColoredTree α),
      ∃ c' b far' path, branch side c t a far = plug (branch side c' .nil b far') path ∧
        ∀ f ∈ path, f.side = side := by
    intro t
    induction t with
    | nil => exact fun c a far => ⟨c, a, far, [], rfl, fun f hf => (by cases hf)⟩
    | node c₁ l₁ a₁ r₁ ihl ihr =>
      intro c a far
      have hstep : ∃ c' b far' path, ColoredTree.node c₁ l₁ a₁ r₁ = plug (branch side c' .nil b far') path ∧
          ∀ f ∈ path, f.side = side := by
        cases side with
        | left => exact ihl c₁ a₁ r₁
        | right => exact ihr c₁ a₁ l₁
      obtain ⟨c', b, far', path, heq, hside⟩ := hstep
      refine ⟨c', b, far', path ++ [⟨side, c, a, far⟩], ?_, fun f hf => ?_⟩
      · rw [plug_append, ← heq]
        rfl
      · rcases List.mem_append.mp hf with hm | hm
        · exact hside f hm
        · rw [List.mem_singleton.mp hm]
  cases side with
  | left => exact hbranch l c a r
  | right => exact hbranch r c a l

/-- A path of left steps has no items on its left. -/
theorem before_left {path : List (Frame α)} (h : ∀ f ∈ path, f.side = .left) : before path = [] := by
  induction path with
  | nil => rfl
  | cons f path ih =>
    rw [before, h f List.mem_cons_self]
    exact ih fun g hg => h g (List.mem_cons_of_mem _ hg)

/-- An item is the root of a subtree. -/
theorem exists_plug_of_mem {T : ColoredTree α} (h : a ∈ T.items) :
    ∃ c l r path, T = plug (.node c l a r) path := by
  induction T with
  | nil => cases h
  | node c l b r ihl ihr =>
    rcases List.mem_append.mp h with hm | hm
    · obtain ⟨c', l', r', path, rfl⟩ := ihl hm
      exact ⟨c', l', r', path ++ [⟨.left, c, b, r⟩], by rw [plug_append]; rfl⟩
    · rcases List.mem_cons.mp hm with rfl | hm
      · exact ⟨c, l, r, [], rfl⟩
      · obtain ⟨c', l', r', path, rfl⟩ := ihr hm
        exact ⟨c', l', r', path ++ [⟨.right, c, b, l⟩], by rw [plug_append]; rfl⟩

/-- A path is no longer than the items on its sides. -/
theorem length_path (path : List (Frame α)) :
    path.length ≤ (before path).length + (after path).length := by
  induction path with
  | nil => exact Nat.le_refl 0
  | cons f path ih =>
    rw [before, after]
    cases f.side <;> simp only [List.length_append, List.length_cons] <;> omega

/-- A tree of a colour whose paths have equally many black nodes and no red child of a red node. -/
inductive Balanced : Color → ℕ → ColoredTree α → Prop
  /-- The empty tree counts as black. -/
  | nil : Balanced .black 0 .nil
  /-- A red node has black children. -/
  | red {n : ℕ} {l r : ColoredTree α} {a : α} (hl : Balanced .black n l) (hr : Balanced .black n r) :
      Balanced .red n (.node .red l a r)
  /-- A black node has any children. -/
  | black {n : ℕ} {c c' : Color} {l r : ColoredTree α} {a : α} (hl : Balanced c n l)
      (hr : Balanced c' n r) : Balanced .black (n + 1) (.node .black l a r)

/-- What a node adds to the black height. -/
def Color.height : Color → ℕ
  | .red => 0
  | .black => 1

/-- A red-black tree with a black root. -/
def RedBlack (t : ColoredTree α) : Prop := ∃ n, Balanced .black n t

/-- A red node seen from a side. -/
theorem Balanced.branch_red (hn : Balanced .black n near) (hf : Balanced .black n far) :
    Balanced .red n (branch side .red near a far) := by
  cases side with
  | left => exact .red hn hf
  | right => exact .red hf hn

/-- A black node seen from a side. -/
theorem Balanced.branch_black (hn : Balanced c n near) (hf : Balanced c' n far) :
    Balanced .black (n + 1) (branch side .black near a far) := by
  cases side with
  | left => exact .black hn hf
  | right => exact .black hf hn

/-- The children of a red node. -/
theorem Balanced.of_red (h : Balanced c n (branch side .red near a far)) :
    c = .red ∧ Balanced .black n near ∧ Balanced .black n far := by
  cases side <;> cases h with
  | red hl hr => first | exact ⟨rfl, hl, hr⟩ | exact ⟨rfl, hr, hl⟩

/-- The children of a black node. -/
theorem Balanced.of_black (h : Balanced c n (branch side .black near a far)) :
    ∃ m c₁ c₂, c = .black ∧ n = m + 1 ∧ Balanced c₁ m near ∧ Balanced c₂ m far := by
  cases side <;> cases h with
  | black hl hr =>
    first
    | exact ⟨_, _, _, rfl, rfl, hl, hr⟩
    | exact ⟨_, _, _, rfl, rfl, hr, hl⟩

/-- A node of any colour above black nodes. -/
theorem Balanced.branch_any (hn : Balanced .black n near) (hf : Balanced .black n far) (c : Color) :
    Balanced c (n + c.height) (branch side c near a far) := by
  cases c with
  | red => exact hn.branch_red hf
  | black => exact hn.branch_black hf

/-- A black node above a tree of height `n + 1`. -/
theorem Balanced.exists_node (h : Balanced .black (n + 1) t) (side : Side) :
    ∃ c₁ c₂ near a far, t = branch side .black near a far ∧ Balanced c₁ n near ∧
      Balanced c₂ n far := by
  cases h with
  | black hl hr =>
    cases side with
    | left => exact ⟨_, _, _, _, _, rfl, hl, hr⟩
    | right => exact ⟨_, _, _, _, _, rfl, hr, hl⟩

/-- A red tree is a node. -/
theorem Balanced.exists_red (h : Balanced .red n t) (side : Side) :
    ∃ near a far, t = branch side .red near a far ∧ Balanced .black n near ∧
      Balanced .black n far := by
  cases h with
  | red hl hr =>
    cases side with
    | left => exact ⟨_, _, _, rfl, hl, hr⟩
    | right => exact ⟨_, _, _, rfl, hr, hl⟩

/-- Filling the hole of a path with a tree of the colour and height gives a red-black tree. -/
inductive Fits : Color → ℕ → List (Frame α) → Prop
  /-- The root is black. -/
  | top {n : ℕ} : Fits .black n []
  /-- The children of a red node are black. -/
  | red {n : ℕ} {side : Side} {a : α} {sibling : ColoredTree α} {path : List (Frame α)}
      (hs : Balanced .black n sibling) (hp : Fits .red n path) :
      Fits .black n (⟨side, .red, a, sibling⟩ :: path)
  /-- The children of a black node have any colour. -/
  | black {n : ℕ} {c c' : Color} {side : Side} {a : α} {sibling : ColoredTree α} {path : List (Frame α)}
      (hs : Balanced c' n sibling) (hp : Fits .black (n + 1) path) :
      Fits c n (⟨side, .black, a, sibling⟩ :: path)

variable {path : List (Frame α)}

/-- A hole for a red tree takes a black one. -/
theorem Fits.mono (h : Fits c n path) : Fits .black n path := by
  cases h with
  | top => exact .top
  | red hs hp => exact .red hs hp
  | black hs hp => exact .black hs hp

/-- The sibling of a hole for black trees, and the hole for its parent. -/
theorem Fits.parent {sibling : ColoredTree α} (h : Fits .black n (⟨side, c, a, sibling⟩ :: path)) :
    ∃ c', Balanced c' n sibling ∧ (c = .red → c' = .black) ∧ Fits c (n + c.height) path := by
  cases h with
  | red hs hp => exact ⟨.black, hs, fun _ => rfl, hp⟩
  | black hs hp => exact ⟨_, hs, fun h => (by cases h), hp⟩

/-- Filling a hole that fits. -/
theorem Fits.plug (h : Fits c n path) (ht : Balanced c n t) : RedBlack (plug t path) := by
  induction h generalizing t with
  | top => exact ⟨_, ht⟩
  | red hs _ ih => exact ih (ht.branch_red hs)
  | black hs _ ih => exact ih (ht.branch_black hs)

/-- The parts of a red-black tree. -/
theorem RedBlack.split (h : RedBlack (plug t path)) :
    ∃ c n, Balanced c n t ∧ Fits c n path := by
  induction path generalizing t with
  | nil =>
    obtain ⟨n, hn⟩ := h
    exact ⟨.black, n, hn, .top⟩
  | cons f path ih =>
    obtain ⟨side, cf, a, sibling⟩ := f
    obtain ⟨c, n, ht, hp⟩ := ih h
    cases cf with
    | red =>
      obtain ⟨rfl, hn, hf⟩ := ht.of_red
      exact ⟨.black, n, hn, .red hf hp⟩
    | black =>
      obtain ⟨m, c₁, c₂, rfl, rfl, hn, hf⟩ := ht.of_black
      exact ⟨c₁, m, hn, .black hf hp⟩

/-- A tree with a black root. -/
def ColoredTree.blacken : ColoredTree α → ColoredTree α
  | .nil => .nil
  | .node _ l a r => .node .black l a r

/-- A blackened node seen from a side. -/
@[simp] theorem blacken_branch : (branch side c near a far).blacken = branch side .black near a far := by
  cases side <;> rfl

/-- A tree with a black root is its own blackening. -/
theorem Balanced.blacken (h : Balanced .black n t) : t.blacken = t := by
  cases h <;> rfl

/-- The root of a red-black tree is black. -/
theorem RedBlack.root (h : RedBlack (ColoredTree.node c t a u)) : c = .black := by
  obtain ⟨n, hn⟩ := h
  cases hn
  rfl

end BiscuitOS.ColorTree
