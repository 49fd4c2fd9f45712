import BiscuitOS.RbtreeHeap

/-!
# Insertion into red-black trees

`rb_link_node` hangs a red node into a hole, and `rb_insert_color` moves the
violation, a red node with a red parent, up until it can be rotated away.
-/

namespace BiscuitOS.RbtreeInsert

open ColorTree RbtreeModel RbtreeHeap

variable {s : RbTree} {a b x fuel n : ℕ} {side : Side} {c c' : Color}
  {t near mid far T : ColoredTree ℕ} {path : List (Frame ℕ)}

/-- The link to a hole. -/
def linkOf : List (Frame ℕ) → RbLink
  | [] => .root
  | f :: _ => .child f.item f.side

/-- Linking a new node fills the hole with a red node. -/
theorem rbLinkNode_rep (h : Rep s (plug .nil path)) (hx : x ≠ 0 ∧ x % 4 = 0)
    (hnew : x ∉ (plug .nil path).items) :
    Rep (rbLinkNode s x (above 0 path) (linkOf path)) (plug (branch .left .red .nil x .nil) path) := by
  have h := rep_plug.mp h
  have hout : x ∉ pathItems path := fun hm => hnew ((perm_plug _ path).mem_iff.mpr hm)
  have hpath : HoldsPath (store s x fun _ => ⟨above 0 path, 0, 0⟩).nodes 0 0 path :=
    h.parents.congr fun y hy => store_other _ fun he => hout (he ▸ hy)
  have hset : Rep (rbLinkNode s x (above 0 path) (linkOf path))
      (plug (branch .left .red .nil x .nil) path) ↔ _ := rep_plug
  refine hset.mpr ⟨?_, ?_, ?_, ?_, ?_⟩
  · cases path with
    | nil => rfl
    | cons f path =>
      exact h.root.trans (top_plug (by rw [Frame.fill, Frame.fill, top_branch, top_branch]) path)
  · have hstore := store_self s x fun _ => ⟨above 0 path, 0, 0⟩
    have hself : (rbLinkNode s x (above 0 path) (linkOf path)).nodes x = ⟨above 0 path, 0, 0⟩ := by
      cases path with
      | nil => exact hstore
      | cons f path =>
        have hne : x ≠ f.item := fun he => hout (by rw [he]; exact List.mem_cons_self)
        exact (store_other _ hne).trans hstore
    exact ⟨hself, trivial, trivial⟩
  · cases path with
    | nil => trivial
    | cons f path =>
      obtain ⟨h1, h2, h3⟩ := hpath
      have hd := h.nodup
      rw [ColoredTree.items, List.nil_append, pathItems, List.nodup_cons] at hd
      have hother : ∀ y ∈ f.sibling.items ++ pathItems path,
          (rbLinkNode s x (above 0 (f :: path)) (linkOf (f :: path))).nodes y =
            (store s x fun _ => ⟨above 0 (f :: path), 0, 0⟩).nodes y :=
        fun y hy => store_other _ fun he => hd.1 (he ▸ hy)
      refine ⟨?_, h2.congr fun y hy => hother y (List.mem_append_left _ hy),
        h3.congr fun y hy => hother y (List.mem_append_right _ hy)⟩
      have hself := store_self (store s x fun _ => ⟨above 0 (f :: path), 0, 0⟩) f.item
        (setChild f.side x)
      exact hself ▸ h1.setChild x
  · exact List.nodup_cons.mpr ⟨hout, h.nodup⟩
  · intro y hy
    rcases List.mem_cons.mp hy with rfl | hm
    · exact hx
    · exact h.aligned y hm

/-- A red node below a red parent with a black uncle is rotated away. -/
theorem liftParent {p g : ℕ} {X S U : ColoredTree ℕ}
    (h : Rep s (plug (branch side .black (branch side .red X p S) g U) path)) :
    ∃ s₁ s₂ s₃, modifyNode s p rbSetBlack = some s₁ ∧ modifyNode s₁ g rbSetRed = some s₂ ∧
      rotate side.other s₂ g = some s₃ ∧
      Rep s₃ (plug X (⟨side, .black, p, branch side.other .red U g S⟩ :: path)) := by
  obtain ⟨s₁, h₁, hrep₁⟩ :=
    Rep.recolor (⟨side, .black, g, U⟩ :: path) recolors_black h
  obtain ⟨s₂, h₂, hrep₂⟩ := Rep.recolor path recolors_red hrep₁
  rw [← branch_other, ← branch_other (d := side) (c := .black)] at hrep₂
  obtain ⟨s₃, h₃, hrep₃⟩ := hrep₂.rotate
  refine ⟨s₁, s₂, s₃, h₁, h₂, h₃, ?_⟩
  rw [branch_other] at hrep₃
  exact hrep₃

/-- A tree with a red node at `x` whose only fault may be a red parent. -/
structure RedAt (s : RbTree) (T : ColoredTree ℕ) (x : ℕ) (path : List (Frame ℕ)) : Prop where
  /-- The red node, its children and the black height. -/
  node : ∃ side near far n, T = plug (branch side .red near x far) path ∧
    Balanced .black n near ∧ Balanced .black n far ∧ Fits .black n path
  /-- The memory. -/
  rep : Rep s T

/-- A red node seen from a side. -/
theorem exists_red_side (side' side : Side) (hn : Balanced .black n near)
    (hf : Balanced .black n far) :
    ∃ near' far', branch side' .red near x far = branch side .red near' x far' ∧
      Balanced .black n near' ∧ Balanced .black n far' := by
  by_cases hs : side' = side
  · exact ⟨near, far, by rw [hs], hn, hf⟩
  · have ho : side' = side.other := by
      cases side <;> cases side' <;> simp_all [Side.other]
    exact ⟨far, near, by rw [ho, branch_other], hf, hn⟩

/-- One round of the loop moves the fault up or rotates it away. -/
theorem insertColorStep_repairs {p g : ℕ} {sides : Side} {sibling uncle : ColoredTree ℕ}
    (h : RedAt s T x (⟨sides, .red, p, sibling⟩ :: ⟨side, .black, g, uncle⟩ :: path)) :
    ∃ s' x' T' path', insertColorStep side s x p g = some (s', x') ∧ RedAt s' T' x' path' ∧
      T'.items = T.items ∧ path'.length ≤ path.length + 1 := by
  obtain ⟨⟨s₀, near, far, n, rfl, hn, hf, hfits⟩, hrep⟩ := h
  obtain ⟨hsib, hfits'⟩ : Balanced .black n sibling ∧
      Fits .red n (⟨side, .black, g, uncle⟩ :: path) := by
    cases hfits with
    | red hs hp => exact ⟨hs, hp⟩
  obtain ⟨cu, huncle, hrest⟩ : ∃ cu, Balanced cu n uncle ∧ Fits .black (n + 1) path := by
    cases hfits' with
    | black hs hp => exact ⟨_, hs, hp⟩
  have hp : Rep s (plug (branch sides .red (branch s₀ .red near x far) p sibling)
    (⟨side, .black, g, uncle⟩ :: path)) := hrep
  have hg : Rep s (plug (branch side .black
    (branch sides .red (branch s₀ .red near x far) p sibling) g uncle) path) := hrep
  have hu : Rep s (plug uncle (⟨side.other, .black, g,
      branch sides .red (branch s₀ .red near x far) p sibling⟩ :: path)) := by
    rw [plug, Frame.fill, branch_other]
    exact hg
  rw [insertColorStep, hg.load, Option.bind_some, hg.linked.far]
  have htest := hu.redNode huncle
  cases cu with
  | red =>
    obtain ⟨un, u, uf, rfl, hun, huf⟩ := huncle.exists_red side
    rw [if_pos (htest.mpr rfl), top_branch]
    obtain ⟨s₁, h₁, hrep₁⟩ := Rep.recolor _ recolors_black hu
    rw [plug, Frame.fill, branch_other] at hrep₁
    obtain ⟨s₂, h₂, hrep₂⟩ := Rep.recolor (⟨side, .black, g, _⟩ :: path)
      recolors_black hrep₁
    obtain ⟨s₃, h₃, hrep₃⟩ := Rep.recolor path recolors_red hrep₂
    refine ⟨s₃, g, _, path, ?_, ⟨⟨side, _, _, n + 1, rfl, ?_, ?_, hrest⟩, hrep₃⟩, ?_, by omega⟩
    · rw [h₁, Option.bind_some, h₂, Option.bind_some, h₃, Option.map_some]
    · exact (hn.branch_red hf).branch_black hsib
    · exact hun.branch_black huf
    · simp only [plug, Frame.fill]
      refine items_plug_congr ?_ path
      cases side <;> cases sides <;> cases s₀ <;> rfl
  | black =>
    rw [if_neg fun hc => by simpa using htest.mp hc, hp.load, Option.bind_some]
    by_cases hs : sides = side
    · subst hs
      have hx0 : top (branch s₀ .red near x far) ≠ 0 := by
        rw [top_branch]
        exact (rep_plug.mp hrep).node_aligned.1
      have hchild : ¬ (s.nodes p).child sides.other = x := by
        have hne := hp.near_ne_far hx0
        rw [hp.linked.far]
        rwa [top_branch] at hne
      obtain ⟨s₁, s₂, s₃, h₁, h₂, h₃, hrep₃⟩ := liftParent hg
      refine ⟨s₃, x, _, _, ?_, ⟨⟨s₀, near, far, n, rfl, hn, hf, ?_⟩, hrep₃⟩, ?_, Nat.le_refl _⟩
      · simp only [if_neg hchild, Option.bind_some, h₁, h₂, h₃, Option.map_some]
      · exact .black (huncle.branch_red hsib) hrest
      · simp only [plug, Frame.fill]
        refine items_plug_congr ?_ path
        rw [← branch_other, items_rotate, branch_other]
        cases sides <;> rfl
    · have ho : sides = side.other := by
        cases side <;> cases sides <;> simp_all [Side.other]
      subst ho
      obtain ⟨m, f, heq, hm, hf⟩ := exists_red_side (x := x) s₀ side hn hf
      rw [heq] at hp hg ⊢
      have hchild : (s.nodes p).child side.other = x := by
        rw [hp.linked.near, top_branch]
      rw [branch_other] at hp
      obtain ⟨s₀', h₀, hrep₀⟩ := hp.rotate
      obtain ⟨s₁, s₂, s₃, h₁, h₂, h₃, hrep₃⟩ := liftParent hrep₀
      refine ⟨s₃, p, _, _, ?_, ⟨⟨side, sibling, m, n, rfl, hsib, hm, ?_⟩, hrep₃⟩, ?_, Nat.le_refl _⟩
      · simp only [if_pos hchild, h₀, Option.map_some, Option.bind_some, h₁, h₂, h₃]
      · exact .black (huncle.branch_red hf) hrest
      · simp only [plug, Frame.fill]
        refine items_plug_congr ?_ path
        cases side <;>
          simp only [branch, Side.other, ColoredTree.items, List.append_assoc, List.cons_append]

/-- A tree that is red-black once its root is black. -/
def BlackenedRoot (T : ColoredTree ℕ) : Prop :=
  ∃ c l a r, T = .node c l a r ∧ RedBlack (.node .black l a r)

/-- A red-black tree with a node has a black root already. -/
theorem blackenedRoot_of_mem (h : RedBlack T) (hx : x ∈ T.items) : BlackenedRoot T := by
  cases T with
  | nil => cases hx
  | node c l a r =>
    obtain rfl := h.root
    exact ⟨_, l, a, r, rfl, h⟩

/-- The item of a subtree is one of the tree. -/
theorem mem_plug (side : Side) (c : Color) (near : ColoredTree ℕ) (a : ℕ) (far : ColoredTree ℕ)
    (path : List (Frame ℕ)) : a ∈ (plug (branch side c near a far) path).items :=
  (perm_plug _ path).mem_iff.mpr
    (List.mem_append_left _ (items_branch.mem_iff.mpr List.mem_cons_self))

/-- The loop of `rb_insert_color` ends at a tree whose root alone may be red. -/
theorem insertColorLoop_repairs (h : RedAt s T x path) (hfuel : path.length < fuel) :
    ∃ s' T', insertColorLoop s x fuel = some s' ∧ Rep s' T' ∧ T'.items = T.items ∧
      BlackenedRoot T' := by
  induction fuel generalizing s T x path with
  | zero => omega
  | succ fuel ih =>
    have hred := h
    obtain ⟨⟨side, near, far, n, rfl, hn, hf, hfits⟩, hrep⟩ := h
    rw [insertColorLoop, hrep.load, Option.bind_some, hrep.parent]
    cases hfits with
    | top =>
      rw [if_neg fun hc => hc.1 rfl]
      refine ⟨s, _, rfl, hrep, rfl, ?_⟩
      cases side with
      | left => exact ⟨_, _, _, _, rfl, n + 1, .black hn hf⟩
      | right => exact ⟨_, _, _, _, rfl, n + 1, .black hf hn⟩
    | black hs hp =>
      rename_i side' p sibling path
      have hpar : Rep s (plug (branch side' .black (branch side .red near x far) p sibling) path) :=
        hrep
      have hblack : ¬ rbIsRed (s.nodes p) = true := by
        rw [hpar.isRed]
        decide
      rw [above, if_neg fun hc => hblack hc.2]
      exact ⟨s, _, rfl, hrep, rfl,
        blackenedRoot_of_mem (hp.plug ((hn.branch_red hf).branch_black hs)) (mem_plug ..)⟩
    | red hs hp =>
      rename_i sides p sibling path
      cases hp with
      | black hu hp =>
        rename_i side' g uncle path
        have hpar : Rep s (plug (branch sides .red (branch side .red near x far) p sibling)
          (⟨side', .black, g, uncle⟩ :: path)) := hrep
        have hg : Rep s (plug (branch side' .black
          (branch sides .red (branch side .red near x far) p sibling) g uncle) path) := hrep
        have hp0 : p ≠ 0 := (rep_plug.mp hpar).node_aligned.1
        have hred' : rbIsRed (s.nodes p) = true := by
          rw [hpar.isRed]
          rfl
        have hside := hg.sideOf (hg.near_ne_far (by rw [top_branch]; exact hp0)).symm
        rw [top_branch] at hside
        rw [above, if_pos ⟨hp0, hred'⟩, hpar.load, Option.bind_some, hpar.parent]
        dsimp only [above]
        rw [hg.load, Option.bind_some, hside]
        obtain ⟨s', x', T', path', hstep, hred', hitems, hlen⟩ := insertColorStep_repairs hred
        obtain ⟨s'', T'', hloop, hrep', hitems', hroot⟩ := ih hred' (by
          simp only [List.length_cons] at hfuel
          omega)
        exact ⟨s'', T'', by rw [hstep, Option.bind_some, hloop], hrep', hitems'.trans hitems, hroot⟩

/-- `rb_insert_color` repairs a tree with a new red node. -/
theorem rbInsertColor_repairs (h : RedAt s T x path) (hfuel : path.length < fuel) :
    ∃ s' T', rbInsertColor s x fuel = some s' ∧ Rep s' T' ∧ T'.items = T.items ∧ RedBlack T' := by
  obtain ⟨s₁, T₁, hloop, hrep, hitems, c, l, a, r, rfl, hblack⟩ := insertColorLoop_repairs h hfuel
  have hroot : Rep s₁ (plug (branch .left c l a r) []) := hrep
  obtain ⟨s₂, hs₂, hrep₂⟩ := Rep.recolor [] recolors_black hroot
  refine ⟨s₂, .node .black l a r, ?_, hrep₂, hitems, hblack⟩
  rw [rbInsertColor, hloop, Option.bind_some, hrep.root]
  exact hs₂

/-- Linking a new node into a hole and repairing the colours gives a red-black tree with the node
at that place. -/
theorem rbLink_repairs (h : Rep s (plug .nil path)) (hT : RedBlack (plug .nil path))
    (hx : x ≠ 0 ∧ x % 4 = 0) (hnew : x ∉ (plug .nil path).items) (fuel : ℕ)
    (hfuel : path.length < fuel) :
    ∃ s' T', rbInsertColor (rbLinkNode s x (above 0 path) (linkOf path)) x fuel = some s' ∧
      Rep s' T' ∧ T'.items = before path ++ x :: after path ∧ RedBlack T' := by
  obtain ⟨c, n, hnil, hfits⟩ := hT.split
  have hrep := rbLinkNode_rep h hx hnew
  have hred : RedAt (rbLinkNode s x (above 0 path) (linkOf path))
      (plug (branch .left .red .nil x .nil) path) x path := by
    cases hnil with
    | nil => exact ⟨⟨.left, .nil, .nil, 0, rfl, .nil, .nil, hfits⟩, hrep⟩
  obtain ⟨s', T', hs', hrep', hitems, hblack⟩ := rbInsertColor_repairs hred hfuel
  refine ⟨s', T', hs', hrep', ?_, hblack⟩
  rw [hitems, items_plug]
  rfl

end BiscuitOS.RbtreeInsert
