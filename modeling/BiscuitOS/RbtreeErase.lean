import BiscuitOS.RbtreeInsert

/-!
# Erasure from red-black trees

`rb_erase` unlinks a node, or puts the next node in its place when it has two
children. `__rb_erase_color` then moves the missing black node up until it can
be found in the sibling.
-/

namespace BiscuitOS.RbtreeErase

open ColorTree RbtreeModel RbtreeHeap RbtreeInsert

variable {s : RbTree} {p x fuel n : ℕ} {side : Side} {c c' cp : Color}
  {t near far sibling T : ColoredTree ℕ} {path : List (Frame ℕ)}

/-- The sibling of a hole in focus. -/
theorem rep_sibling (h : Rep s (plug (branch side cp t p sibling) path)) :
    Rep s (plug sibling (⟨side.other, cp, p, t⟩ :: path)) := by
  rw [plug, Frame.fill, branch_other]
  exact h

/-- A red sibling is rotated away, which keeps the hole below a red parent. -/
theorem rotateSibling_black (h : Rep s (plug (branch side cp t p sibling) path))
    (hs : Balanced c (n + 1) sibling) (hc : cp = .red → c = .black)
    (hfits : Fits cp (n + 1 + cp.height) path) :
    ∃ s' cp' sibling' path', rotateSibling side s p (top sibling) = some (s', top sibling') ∧
      Rep s' (plug (branch side cp' t p sibling') path') ∧ Balanced .black (n + 1) sibling' ∧
      Fits cp' (n + 1 + cp'.height) path' ∧ path'.length + cp'.height ≤ path.length + 1 ∧
      (plug (branch side cp' t p sibling') path').items =
        (plug (branch side cp t p sibling) path).items := by
  cases c with
  | black =>
    refine ⟨s, cp, sibling, path, ?_, h, hs, hfits, ?_, rfl⟩
    · obtain ⟨c₁, c₂, m, o, f, rfl, -, -⟩ := hs.exists_node side
      have ho := rep_sibling h
      have hblack : ¬ rbIsRed (s.nodes o) = true := by
        rw [ho.isRed]
        decide
      rw [rotateSibling, top_branch, ho.load, Option.bind_some, if_neg hblack]
    · cases cp <;> simp only [Color.height] <;> omega
  | red =>
    obtain ⟨m, o, f, rfl, hm, hf⟩ := hs.exists_red side
    have hcp : cp = .black := by
      cases cp with
      | red => exact hc rfl
      | black => rfl
    subst hcp
    have ho := rep_sibling h
    have hred : rbIsRed (s.nodes o) = true := by
      rw [ho.isRed]
      rfl
    obtain ⟨s₁, h₁, hrep₁⟩ := Rep.recolor _ recolors_black ho
    rw [plug, Frame.fill, branch_other] at hrep₁
    obtain ⟨s₂, h₂, hrep₂⟩ := Rep.recolor path recolors_red hrep₁
    obtain ⟨s₃, h₃, hrep₃⟩ := hrep₂.rotate
    have hp : Rep s₃ (plug (branch side .red t p m) (⟨side, .black, o, f⟩ :: path)) := hrep₃
    refine ⟨s₃, .red, m, ⟨side, .black, o, f⟩ :: path, ?_, hp, hm, .black hf hfits, ?_, ?_⟩
    · rw [rotateSibling, top_branch, ho.load, Option.bind_some, if_pos hred, h₁, Option.bind_some,
        h₂, Option.bind_some, h₃, Option.bind_some, hp.load, Option.map_some, hp.linked.far]
    · exact Nat.le_refl _
    · simp only [plug, Frame.fill]
      refine items_plug_congr ?_ path
      cases side <;>
        simp only [branch, ColoredTree.items, List.append_assoc, List.cons_append]

/-- A red child of the sibling is rotated to the outer side. -/
theorem rotateNephew_outer {o : ℕ} {c₁ c₂ : Color} {sn sf : ColoredTree ℕ}
    (h : Rep s (plug (branch side cp t p (branch side .black sn o sf)) path))
    (hsn : Balanced c₁ n sn) (hsf : Balanced c₂ n sf) (hred : ¬ (c₁ = .black ∧ c₂ = .black)) :
    ∃ s' c₁' sn' o' sf', rotateNephew side s p o = some (s', o') ∧
      Rep s' (plug (branch side cp t p (branch side .black sn' o' sf')) path) ∧
      Balanced c₁' n sn' ∧ Balanced .red n sf' ∧
      (plug (branch side cp t p (branch side .black sn' o' sf')) path).items =
        (plug (branch side cp t p (branch side .black sn o sf)) path).items := by
  have ho := rep_sibling h
  have hfar : Rep s (plug sf (⟨side.other, .black, o, sn⟩ :: ⟨side.other, cp, p, t⟩ :: path)) :=
    rep_sibling ho
  have htest := hfar.blackOrNull hsf
  rw [rotateNephew, ho.load, Option.bind_some, ho.linked.far, ho.linked.near, htest]
  cases c₂ with
  | red =>
    exact ⟨s, c₁, sn, o, sf, by rw [if_neg (by decide)], h, hsn, hsf, rfl⟩
  | black =>
    have hc₁ : c₁ = .red := by
      cases c₁ with
      | red => rfl
      | black => exact absurd ⟨rfl, rfl⟩ hred
    subst hc₁
    obtain ⟨x₁, m, x₂, rfl, hx₁, hx₂⟩ := hsn.exists_red side
    obtain ⟨s₁, h₁, hrep₁⟩ :=
      Rep.recolor (⟨side, .black, o, sf⟩ :: ⟨side.other, cp, p, t⟩ :: path)
        recolors_black ho
    obtain ⟨s₂, h₂, hrep₂⟩ := Rep.recolor (⟨side.other, cp, p, t⟩ :: path)
      recolors_red hrep₁
    rw [← branch_other, ← branch_other (d := side) (c := .black)] at hrep₂
    obtain ⟨s₃, h₃, hrep₃⟩ := hrep₂.rotate
    rw [branch_other, plug, Frame.fill, branch_other] at hrep₃
    refine ⟨s₃, .black, x₁, m, branch side.other .red sf o x₂, ?_, hrep₃, hx₁,
      hsf.branch_red hx₂, ?_⟩
    · rw [if_pos (by decide), top_branch, h₁, Option.bind_some, h₂, Option.bind_some, h₃,
        Option.bind_some, hrep₃.load, Option.map_some, hrep₃.linked.far, top_branch]
    · refine items_plug_congr ?_ path
      cases side <;>
        simp only [branch, Side.other, ColoredTree.items, List.append_assoc, List.cons_append]

/-- A red outer child of the sibling pays for the missing black node. -/
theorem rotateParent_repairs {o : ℕ} {sn sf : ColoredTree ℕ}
    (h : Rep s (plug (branch side cp t p (branch side .black sn o sf)) path))
    (ht : Balanced .black n t) (hsn : Balanced c n sn) (hsf : Balanced .red n sf)
    (hfits : Fits cp (n + 1 + cp.height) path) :
    ∃ s' T', rotateParent side s p o = some s' ∧ Rep s' T' ∧ RedBlack T' ∧
      T'.items = (plug (branch side cp t p (branch side .black sn o sf)) path).items := by
  obtain ⟨y₁, q, y₂, rfl, hy₁, hy₂⟩ := hsf.exists_red side
  have hcolor : rbColor (s.nodes p) = bit cp := h.linked.color (rep_plug.mp h).above
  have ho := rep_sibling h
  obtain ⟨s₁, h₁, hrep₁⟩ := Rep.recolor _ (recolors_color cp) ho
  rw [plug, Frame.fill, branch_other] at hrep₁
  obtain ⟨s₂, h₂, hrep₂⟩ := Rep.recolor _ recolors_black hrep₁
  have ho₂ := rep_sibling hrep₂
  have hq₂ : Rep s₂ (plug (branch side .red y₁ q y₂)
    (⟨side.other, cp, o, sn⟩ :: ⟨side.other, .black, p, t⟩ :: path)) := rep_sibling ho₂
  obtain ⟨s₃, h₃, hrep₃⟩ := Rep.recolor _ recolors_black hq₂
  rw [plug, Frame.fill, branch_other, plug, Frame.fill, branch_other] at hrep₃
  obtain ⟨s₄, h₄, hrep₄⟩ := hrep₃.rotate
  refine ⟨s₄, _, ?_, hrep₄, hfits.plug ?_, ?_⟩
  · rw [rotateParent, h.load, Option.bind_some, hcolor, h₁, Option.bind_some, h₂, Option.bind_some,
      ho₂.load, Option.bind_some, ho₂.linked.far, top_branch, h₃, Option.bind_some, h₄]
  · exact (ht.branch_black hsn).branch_any (hy₁.branch_black hy₂) cp
  · refine items_plug_congr ?_ path
    cases side <;>
      simp only [branch, ColoredTree.items, List.append_assoc, List.cons_append]

/-- A hole filled with a tree that lacks a black node, or with a red one that can become black, and
fuel enough for the way up. -/
inductive Lacking (fuel : ℕ) (t : ColoredTree ℕ) (path : List (Frame ℕ)) : Prop
  /-- The tree is one black node too low. -/
  | lower (n : ℕ) (ht : Balanced .black n t) (hfits : Fits .black (n + 1) path)
      (hfuel : path.length < fuel)
  /-- The root of the tree is red. -/
  | red (side : Side) (near : ColoredTree ℕ) (a : ℕ) (far : ColoredTree ℕ) (ht : t = branch side .red near a far)
      (hblack : RedBlack (plug t.blacken path)) (hfuel : 0 < fuel)

/-- A property of both children. -/
theorem and_children {n : RbNode} {l r : ℕ} (h : Linked n p c side l r) (f : ℕ → Bool) :
    (f n.rbLeft && f n.rbRight) = (f l && f r) := by
  cases side with
  | left => rw [← h.near, ← h.far]; rfl
  | right => rw [← h.near, ← h.far, Bool.and_comm]; rfl

/-- One round of the loop moves the hole up or repairs the tree. -/
theorem eraseColorStep_repairs (fuel : ℕ)
    (h : Rep s (plug (branch side cp t p sibling) path))
    (ht : Balanced .black n t) (hs : Balanced c (n + 1) sibling) (hc : cp = .red → c = .black)
    (hfits : Fits cp (n + 1 + cp.height) path) (hfuel : path.length < fuel) :
    ∃ s' T', Rep s' T' ∧ T'.items = (plug (branch side cp t p sibling) path).items ∧
      ((∃ t' path', eraseColorStep side s p = some (s', top t', above 0 path', false) ∧
          T' = plug t' path' ∧ Lacking fuel t' path') ∨
        eraseColorStep side s p = some (s', s'.rbNode, p, true) ∧ RedBlack T') := by
  obtain ⟨s₁, cp', sib', path', hturn, hrep₁, hs', hfits', hlen, hitems⟩ :=
    rotateSibling_black h hs hc hfits
  obtain ⟨c₁, c₂, sn, o, sf, rfl, hsn, hsf⟩ := hs'.exists_node side
  rw [top_branch] at hturn
  have ho := rep_sibling hrep₁
  have hnear : Rep s₁ (plug sn (⟨side, .black, o, sf⟩ :: ⟨side.other, cp', p, t⟩ :: path')) := ho
  have hfar : Rep s₁ (plug sf (⟨side.other, .black, o, sn⟩ :: ⟨side.other, cp', p, t⟩ :: path')) :=
    rep_sibling ho
  have htest : (blackOrNull s₁ (s₁.nodes o).rbLeft && blackOrNull s₁ (s₁.nodes o).rbRight) =
      (decide (c₁ = .black) && decide (c₂ = .black)) := by
    rw [and_children ho.linked, hnear.blackOrNull hsn, hfar.blackOrNull hsf]
  by_cases hblack : c₁ = .black ∧ c₂ = .black
  · obtain ⟨rfl, rfl⟩ := hblack
    obtain ⟨s₂, h₂, hrep₂⟩ := Rep.recolor _ recolors_red ho
    rw [plug, Frame.fill, branch_other] at hrep₂
    have hitems₂ : (plug (branch side cp' t p (branch side .red sn o sf)) path').items =
        (plug (branch side cp t p sibling) path).items := by
      rw [← hitems]
      refine items_plug_congr ?_ path'
      cases side <;> rfl
    refine ⟨s₂, _, hrep₂, hitems₂, Or.inl ⟨_, path', ?_, rfl, ?_⟩⟩
    · rw [eraseColorStep, h.load, Option.bind_some, h.linked.far, hturn, Option.bind_some, ho.load,
        Option.bind_some, htest, if_pos (by decide), h₂, Option.bind_some, hrep₂.load,
        Option.map_some, hrep₂.parent, top_branch]
    · cases cp' with
      | red =>
        refine .red side _ p _ rfl ?_ (by omega)
        rw [blacken_branch]
        exact hfits'.mono.plug (ht.branch_black (hsn.branch_red hsf))
      | black =>
        refine .lower (n + 1) (ht.branch_black (hsn.branch_red hsf)) hfits' ?_
        simp only [Color.height] at hlen
        omega
  · obtain ⟨s₂, c₁', sn', o', sf', h₂, hrep₂, hsn', hsf', hitems₂⟩ :=
      rotateNephew_outer hrep₁ hsn hsf hblack
    obtain ⟨s₃, T', h₃, hrep₃, hred, hitems₃⟩ := rotateParent_repairs hrep₂ ht hsn' hsf' hfits'
    refine ⟨s₃, T', hrep₃, hitems₃.trans (hitems₂.trans hitems), Or.inr ⟨?_, hred⟩⟩
    have hcond : ¬ (decide (c₁ = .black) && decide (c₂ = .black)) = true := by
      simpa using hblack
    rw [eraseColorStep, h.load, Option.bind_some, h.linked.far, hturn, Option.bind_some, ho.load,
      Option.bind_some, htest, if_neg hcond, h₂, Option.bind_some, h₃, Option.map_some]

/-- The root of a tree with a hole below the root is not in the hole. -/
theorem top_ne_root {f : Frame ℕ} (h : Rep s (plug t (f :: path))) : top t ≠ s.rbNode := by
  have hat := rep_plug.mp h
  have hmem : ∀ (u : ColoredTree ℕ) (f : Frame ℕ) (path : List (Frame ℕ)),
      top (plug u (f :: path)) ∈ pathItems (f :: path) := by
    intro u f path
    induction path generalizing u f with
    | nil =>
      rw [plug, plug, Frame.fill, top_branch]
      exact List.mem_cons_self
    | cons g path ih =>
      exact List.mem_cons_of_mem _ (List.mem_append_right _ (ih (f.fill u) g))
  rw [h.root]
  intro he
  have hm := hmem t f path
  rw [← he] at hm
  have h0 := (hat.aligned _ (List.mem_append_right _ hm)).1
  exact (List.nodup_append.mp hat.nodup).2.2 _ (top_mem h0) _ hm rfl

/-- The loop of `__rb_erase_color` ends at a node that has to be black. -/
theorem eraseColorLoop_repairs (h : Rep s (plug t path)) (hlack : Lacking fuel t path) :
    ∃ s' u path', eraseColorLoop s (top t) (above 0 path) fuel = some (s', top u) ∧
      Rep s' (plug u path') ∧ (plug u path').items = (plug t path).items ∧
      RedBlack (plug u.blacken path') := by
  induction fuel generalizing s t path with
  | zero =>
    cases hlack with
    | lower n ht hfits hfuel => omega
    | red side near a far ht hblack hfuel => omega
  | succ fuel ih =>
    cases hlack with
    | red side near a far ht hblack hfuel =>
      subst ht
      have hb : blackOrNull s (top (branch side .red near a far)) = false := by
        rw [top_branch, blackOrNull, rbIsBlack, h.linked.color (rep_plug.mp h).above]
        have h0 := (rep_plug.mp h).node_aligned.1
        simpa [bit] using h0
      rw [eraseColorLoop, if_neg fun hc => by rw [hb] at hc; cases hc.1]
      exact ⟨s, _, path, rfl, h, rfl, hblack⟩
    | lower n ht hfits hfuel =>
      cases path with
      | nil =>
        rw [eraseColorLoop, if_neg fun hc => hc.2 h.root.symm]
        exact ⟨s, t, [], rfl, h, rfl, by rw [ht.blacken]; exact ⟨n, ht⟩⟩
      | cons f path =>
        have hroot := top_ne_root h
        obtain ⟨side, cp, p, sibling⟩ := f
        obtain ⟨c, hs, hc, hfits'⟩ := hfits.parent
        have hp : Rep s (plug (branch side cp t p sibling) path) := h
        have hsib0 : top sibling ≠ 0 := by
          obtain ⟨side', near, a, far, hsib⟩ : ∃ side' near a far,
              sibling = branch side' c near a far := by
            cases hs with
            | red _ _ => exact ⟨.left, _, _, _, rfl⟩
            | black _ _ => exact ⟨.left, _, _, _, rfl⟩
          subst hsib
          rw [top_branch]
          exact (rep_plug.mp (rep_sibling hp)).node_aligned.1
        have hside : (if (s.nodes p).rbLeft = top t then Side.left else Side.right) = side := by
          have hq : Rep s (plug (branch side.other cp sibling p t) path) := by
            rw [branch_other]
            exact hp
          have hfound := hp.sideOf (hq.near_ne_far hsib0)
          simpa only [eq_comm] using hfound
        have hb : blackOrNull s (top t) = true := h.blackOrNull ht
        rw [eraseColorLoop, if_pos ⟨hb, hroot⟩, above, hp.load, Option.bind_some, hside]
        dsimp only
        obtain ⟨s₁, T', hrep₁, hitems, hcase⟩ :=
          eraseColorStep_repairs fuel hp ht hs hc hfits' (by
            simp only [List.length_cons] at hfuel
            omega)
        rcases hcase with ⟨t', path', hstep, rfl, hlack'⟩ | ⟨hstep, hred⟩
        · obtain ⟨s₂, u, path₂, hloop, hrep₂, hitems₂, hblack⟩ := ih hrep₁ hlack'
          refine ⟨s₂, u, path₂, ?_, hrep₂, hitems₂.trans hitems, hblack⟩
          rw [hstep, Option.bind_some, if_neg Bool.false_ne_true, hloop]
        · refine ⟨s₁, T', [], ?_, hrep₁, hitems, ?_⟩
          · rw [hstep, Option.bind_some, if_pos rfl, hrep₁.root]
          · obtain ⟨m, hm⟩ := hred
            exact ⟨m, by rw [hm.blacken]; exact hm⟩

/-- `__rb_erase_color` repairs a tree that lacks a black node. -/
theorem rbEraseColor_repairs (h : Rep s (plug t path)) (hlack : Lacking fuel t path) :
    ∃ s' T', rbEraseColor s (top t) (above 0 path) fuel = some s' ∧ Rep s' T' ∧
      T'.items = (plug t path).items ∧ RedBlack T' := by
  obtain ⟨s₁, u, path', hloop, hrep, hitems, hblack⟩ := eraseColorLoop_repairs h hlack
  rw [rbEraseColor, hloop, Option.map_some]
  cases u with
  | nil => exact ⟨s₁, _, rfl, hrep, hitems, hblack⟩
  | node c l a r =>
    have hrep : Rep s₁ (plug (branch .left c l a r) path') := hrep
    have ha : a ≠ 0 := (rep_plug.mp hrep).node_aligned.1
    obtain ⟨s₂, h₂, hrep₂⟩ := hrep.recolor _ recolors_black
    rw [modify_node _ ha] at h₂
    refine ⟨s₂, _, ?_, hrep₂, ?_, hblack⟩
    · rw [← h₂, modifySome, top, if_neg ha]
    · rw [← hitems]
      exact items_plug_congr (t := .node .black l a r) (u := .node c l a r) rfl path'

/-- Unlinking a node with at most one child. -/
theorem eraseOne_rep (h : Rep s (plug (branch side c .nil x t) path)) :
    ∃ s', eraseOne s x (top t) = some (s', top t, above 0 path, bit c) ∧ Rep s' (plug t path) := by
  have hat := rep_plug.mp h
  obtain ⟨hx, -, ht⟩ := hat.branch
  have hnd := hat.apart
  have hpath := hat.parents
  rw [top_branch] at hpath
  have hal : ∀ a ∈ t.items ++ pathItems path, a ≠ 0 ∧ a % 4 = 0 := fun a ha =>
    hat.aligned a ((items_branch.append_right _).mem_iff.mpr
      (List.mem_cons_of_mem _ ha))
  simp only [ColoredTree.items, List.nil_append, List.nodup_cons, List.nodup_append, List.mem_append,
    not_or] at hnd
  obtain ⟨⟨hxt, hxp⟩, htn, hpn, htp⟩ := hnd
  have hne : ∀ a ∈ pathItems path, a ≠ 0 := fun a ha => (hal a (List.mem_append_right _ ha)).1
  refine ⟨_, by rw [eraseOne, h.load, Option.map_some, h.parent, h.linked.color hat.above],
    rep_plug.mpr ⟨?_, ?_, ?_, ?_, hal⟩⟩
  · exact relink_root .left t (by rw [modifySome_root, hat.root]) hne x
  · have hadopt := ht.adopt (q := above 0 path) htn
      (fun a ha => (hal a (List.mem_append_left _ ha)).1) hat.node_aligned.2 hat.above
    exact hadopt.congr fun y hy => relink_other fun hm => htp y hy y hm rfl
  · refine relink_holds (hpath.congr fun y hy => ?_) hpn hne hat.node_aligned.1 hxp
    exact modifySome_other _ fun hm => htp y hm y hy rfl
  · exact List.nodup_append.mpr ⟨htn, hpn, htp⟩

/-- The way down to the last node on a side. -/
theorem descend_end {lf : List (Frame ℕ)} (hlf : ∀ f ∈ lf, f.side = side)
    (h : Holds s.nodes p (plug (branch side c .nil x far) lf))
    (hne : ∀ a ∈ (plug (branch side c .nil x far) lf).items, a ≠ 0) (hfuel : lf.length < fuel) :
    descend side s (top (plug (branch side c .nil x far) lf)) fuel = some x := by
  induction lf using List.reverseRecOn generalizing p fuel with
  | nil =>
    obtain ⟨fuel, rfl⟩ := Nat.exists_eq_succ_of_ne_zero (Nat.ne_of_gt hfuel)
    have hx : x ≠ 0 := hne x (items_branch.mem_iff.mpr List.mem_cons_self)
    have hl := (holds_branch.mp h).1
    rw [plug, top_branch, Nat.succ_eq_add_one, descend, load_node hx, Option.bind_some]
    exact if_pos hl.near
  | append_singleton lf f ih =>
    obtain ⟨side', cf, a, sibling⟩ := f
    obtain rfl : side' = side := hlf _ (List.mem_append_right _ List.mem_cons_self)
    rw [plug_append] at h hne ⊢
    rw [plug, Frame.fill, plug] at h hne ⊢
    rw [List.length_append, List.length_singleton] at hfuel
    obtain ⟨fuel, rfl⟩ := Nat.exists_eq_succ_of_ne_zero (Nat.ne_of_gt (Nat.zero_lt_of_lt hfuel))
    obtain ⟨hl, hbelow, -⟩ := holds_branch.mp h
    have hmem : ∀ y ∈ (plug (branch side' c .nil x far) lf).items, y ≠ 0 := fun y hy =>
      hne y (items_branch.mem_iff.mpr (List.mem_cons_of_mem _ (List.mem_append_left _ hy)))
    have ha : a ≠ 0 := hne a (items_branch.mem_iff.mpr List.mem_cons_self)
    have htop : top (plug (branch side' c .nil x far) lf) ≠ 0 := by
      cases hT : plug (branch side' c .nil x far) lf with
      | nil =>
        have hx := (perm_plug (branch side' c .nil x far) lf).mem_iff.mpr
          (List.mem_append_left _ (items_branch.mem_iff.mpr List.mem_cons_self))
        rw [hT] at hx
        cases hx
      | node c l a r =>
        rw [hT] at hmem
        exact hmem a (List.mem_append_right _ List.mem_cons_self)
    have hchild : (s.nodes a).child side' = top (plug (branch side' c .nil x far) lf) := hl.near
    rw [top_branch, Nat.succ_eq_add_one, descend, load_node ha, Option.bind_some]
    dsimp only
    rw [hchild, if_neg htop]
    exact ih (fun f hf => hlf f (List.mem_append_left _ hf)) hbelow hmem (by omega)

/-- The next node taken out of the right child of a node, which becomes its own right child. -/
theorem unlinkNext_holds {old y : ℕ} {R : ColoredTree ℕ} {f : Frame ℕ} {lf : List (Frame ℕ)}
    (hside : f.side = .left) (h : Holds s.nodes old (plug (branch .left c .nil y R) (f :: lf)))
    (hnodup : (plug (branch .left c .nil y R) (f :: lf)).items.Nodup)
    (hal : ∀ a ∈ (plug (branch .left c .nil y R) (f :: lf)).items, a ≠ 0 ∧ a % 4 = 0)
    (hold : old ≠ 0 ∧ old % 4 = 0)
    (hright : (s.nodes old).rbRight = top (plug R (f :: lf)))
    (hout : old ∉ (plug (branch .left c .nil y R) (f :: lf)).items) :
    ∃ s', unlinkNext s old y (top R) f.item = some s' ∧
      Holds s'.nodes y (plug R (f :: lf)) ∧ (s'.nodes y).rbRight = top (plug R (f :: lf)) ∧
      s'.rbNode = s.rbNode ∧
      ∀ x ∉ (plug (branch .left c .nil y R) (f :: lf)).items, s'.nodes x = s.nodes x := by
  have hperm := (perm_plug (branch .left c .nil y R) (f :: lf)).trans
    (items_branch.append_right _)
  have hrest := perm_plug R (f :: lf)
  have hnd := hperm.nodup_iff.mp hnodup
  have hal' : ∀ a ∈ y :: (plug R (f :: lf)).items, a ≠ 0 ∧ a % 4 = 0 := fun a ha =>
    hal a (hperm.mem_iff.mpr (by simpa [hrest.mem_iff, ColoredTree.items] using ha))
  obtain ⟨hy, hnd'⟩ := List.nodup_cons.mp hnd
  have hnd' : (R.items ++ pathItems (f :: lf)).Nodup := hnd'
  have hyout : y ∉ (plug R (f :: lf)).items := fun hm => hy (hrest.mem_iff.mp hm)
  obtain ⟨hRn, hpn, hdisj⟩ := List.nodup_append.mp hnd'
  obtain ⟨h1, h2⟩ := (holds_plug _ _).mp h
  obtain ⟨-, -, hR⟩ := holds_branch.mp h1
  rw [top_branch] at h2
  have hmemR : ∀ a ∈ R.items, a ∈ (plug R (f :: lf)).items := fun a ha =>
    hrest.mem_iff.mpr (List.mem_append_left _ ha)
  have hmemP : ∀ a ∈ pathItems (f :: lf), a ∈ (plug R (f :: lf)).items := fun a ha =>
    hrest.mem_iff.mpr (List.mem_append_right _ ha)
  have hf : f.item ≠ 0 ∧ f.item % 4 = 0 :=
    hal' _ (List.mem_cons_of_mem _ (hmemP _ List.mem_cons_self))
  have hy04 := hal' y List.mem_cons_self
  have hroot0 : top (plug R (f :: lf)) ≠ 0 := by
    intro h0
    cases hT : plug R (f :: lf) with
    | nil =>
      have hm := hmemP f.item List.mem_cons_self
      rw [hT] at hm
      cases hm
    | node c l a r =>
      rw [hT] at h0 hal'
      exact (hal' a (List.mem_cons_of_mem _ (List.mem_append_right _ List.mem_cons_self))).1 h0
  have hrootmem : top (plug R (f :: lf)) ∈ (plug R (f :: lf)).items := top_mem hroot0
  generalize hs2 : modifySome s (top R) (rbSetParent f.item) = s2
  have hR2 : Holds s2.nodes f.item R := by
    rw [← hs2]
    exact hR.adopt hRn (fun a ha => (hal' a (List.mem_cons_of_mem _ (hmemR a ha))).1) hy04.2 hf.2
  have hP2 : HoldsPath s2.nodes old y (f :: lf) := h2.congr fun a ha => by
    rw [← hs2]
    exact modifySome_other _ fun hm => hdisj a hm a ha rfl
  generalize hs3 : store s2 f.item (setChild .left (top R)) = s3
  have hP3 : HoldsPath s3.nodes old (top R) (f :: lf) := by
    have hset := hP2.refill hpn (top R)
    rw [hside, hs3] at hset
    exact hset
  have hR3 : Holds s3.nodes f.item R := hR2.congr fun a ha => by
    rw [← hs3]
    exact store_other _ fun he => hdisj a ha _ List.mem_cons_self he
  have hT3 : Holds s3.nodes old (plug R (f :: lf)) := (holds_plug _ _).mpr ⟨hR3, hP3⟩
  have hold3 : s3.nodes old = s.nodes old := by
    have hne : old ≠ f.item := fun he => hout (hperm.mem_iff.mpr (by simp [he, pathItems]))
    have hnR : old ∉ R.items := fun hm => hout (hperm.mem_iff.mpr (by simp [hm]))
    rw [← hs3, store_other _ hne, ← hs2, modifySome_other _ hnR]
  generalize hs4 : store s3 y (setChild .right (top (plug R (f :: lf)))) = s4
  have hT4 : Holds s4.nodes old (plug R (f :: lf)) := hT3.congr fun a ha => by
    rw [← hs4]
    exact store_other _ fun he => hyout (he ▸ ha)
  have hT5 := hT4.adopt (q := y) (hrest.nodup_iff.mpr hnd')
    (fun a ha => (hal' a (List.mem_cons_of_mem _ ha)).1) hold.2 hy04.2
  rw [modifySome, if_neg hroot0] at hT5
  have hyne : y ≠ top (plug R (f :: lf)) := fun he => hyout (he ▸ hrootmem)
  refine ⟨_, ?_, hT5, ?_, ?_, fun x hx => ?_⟩
  · rw [unlinkNext]
    simp only [hs2, modify_node _ hf.1, hs3, Option.bind_some, load_node hold.1, hold3, hright,
      modify_node _ hy04.1, hs4, modify_node _ hroot0]
  · rw [store_other _ hyne, ← hs4, store_self]
    rfl
  · rw [store_root, ← hs4, store_root, ← hs3, store_root, ← hs2, modifySome_root]
  · have hxy : x ≠ y := fun he => hx (hperm.mem_iff.mpr (by simp [he]))
    have hxR : x ∉ R.items := fun hm => hx (hperm.mem_iff.mpr (by simp [hm]))
    have hxP : x ∉ pathItems (f :: lf) := fun hm => hx (hperm.mem_iff.mpr (by simp [hm]))
    have hxf : x ≠ f.item := fun he => hxP (he ▸ List.mem_cons_self)
    have hxt : x ≠ top (plug R (f :: lf)) := fun he => by
      rcases List.mem_append.mp (hrest.mem_iff.mp (he ▸ hrootmem)) with hm | hm
      · exact hxR hm
      · exact hxP hm
    rw [store_other _ hxt, ← hs4, store_other _ hxy, ← hs3, store_other _ hxf, ← hs2,
      modifySome_other _ hxR]

/-- The next node in the place of the old one. -/
theorem takePlace_rep {old y hr : ℕ} {R L : ColoredTree ℕ}
    (hold : Linked (s.nodes old) (above 0 path) c .right hr (top L)) (hL : Holds s.nodes old L)
    (hL0 : top L ≠ 0) (hR : Holds s.nodes y R) (hy : (s.nodes y).rbRight = top R)
    (hpath : HoldsPath s.nodes 0 y path) (hroot : s.rbNode = top (plug (branch .right c R y L) path))
    (hnodup : (y :: (R.items ++ L.items ++ pathItems path)).Nodup)
    (hal : ∀ a ∈ y :: (R.items ++ L.items ++ pathItems path), a ≠ 0 ∧ a % 4 = 0)
    (hold0 : old ≠ 0 ∧ old % 4 = 0) :
    ∃ s', takePlace s old y = some s' ∧ Rep s' (plug (branch .right c R y L) path) := by
  have hy04 := hal y List.mem_cons_self
  have hL4 : ∀ a ∈ L.items, a ≠ 0 := fun a ha => (hal a (by simp [ha])).1
  have hnd := hnodup
  simp only [List.nodup_cons, List.nodup_append, List.mem_append, not_or] at hnd
  obtain ⟨⟨⟨hyR, hyL⟩, hyP⟩, ⟨-, hLn, hRL⟩, -, hRLP⟩ := hnd
  generalize hs1 : store s y (fun n => { n with rbParentColor := (s.nodes old).rbParentColor }) = s1
  generalize hs2 : store s1 y (setChild .left (top L)) = s2
  have e2 : ∀ x, x ≠ y → s2.nodes x = s.nodes x := fun x hx => by
    rw [← hs2, store_other _ hx, ← hs1, store_other _ hx]
  have hL2 : Holds s2.nodes old L := hL.congr fun x hx => e2 x fun he => hyL (he ▸ hx)
  have hL3 := hL2.adopt (q := y) hLn hL4 hold0.2 hy04.2
  have e3 : ∀ x, x ∉ L.items → (modifySome s2 (top L) (rbSetParent y)).nodes x = s2.nodes x :=
    fun x hx => modifySome_other _ hx
  have hword : (modifySome s2 (top L) (rbSetParent y)).nodes y =
      ⟨above 0 path + bit c, top R, top L⟩ := by
    rw [e3 y hyL, ← hs2, store_self, ← hs1, store_self]
    simp only [setChild, hold.word, hy]
  refine ⟨modifySome s2 (top L) (rbSetParent y), ?_, rep_plug.mpr ⟨?_, ?_, ?_, ?_, ?_⟩⟩
  · rw [takePlace, load_node hold0.1, Option.bind_some, modify_node _ hy04.1, Option.bind_some,
      hs1, modify_node _ hy04.1, Option.bind_some, show (s.nodes old).rbLeft = top L from hold.far,
      hs2, modify_node _ hL0, modifySome, if_neg hL0]
  · rw [modifySome_root, ← hs2, store_root, ← hs1, store_root, hroot]
  · refine holds_branch.mpr ⟨linked_branch.mpr hword, ?_, hL3⟩
    refine hR.congr fun x hx => ?_
    rw [e3 x fun hm => hRL x hx x hm rfl, e2 x fun he => hyR (he ▸ hx)]
  · rw [top_branch]
    refine hpath.congr fun x hx => ?_
    rw [e3 x fun hm => hRLP x (Or.inr hm) x hx rfl, e2 x fun he => hyP (he ▸ hx)]
  · exact (items_branch.append_right _).nodup_iff.mpr hnodup
  · exact fun a ha => hal a ((items_branch.append_right _).mem_iff.mp ha)

/-- Unlinking a node with two children: the next node takes its place. -/
theorem eraseTwo_rep {old y : ℕ} {R L : ColoredTree ℕ} {lf : List (Frame ℕ)}
    (hlf : ∀ f ∈ lf, f.side = .left) (hL0 : top L ≠ 0)
    (h : Rep s (plug (branch .right cp (plug (branch .left c .nil y R) lf) old L) path)) (fuel : ℕ)
    (hfuel : lf.length < fuel) :
    ∃ s', eraseTwo s old fuel =
        some (s', top R, above 0 (lf ++ ⟨.right, cp, y, L⟩ :: path), bit c) ∧
      Rep s' (plug R (lf ++ ⟨.right, cp, y, L⟩ :: path)) := by
  have hat := rep_plug.mp h
  obtain ⟨ho, hR, hL⟩ := hat.branch
  have hpath := hat.parents
  rw [top_branch] at hpath
  have hold := hat.node_aligned
  have hnd := hat.apart
  have hal : ∀ a ∈ old :: ((plug (branch .left c .nil y R) lf).items ++ L.items ++ pathItems path),
      a ≠ 0 ∧ a % 4 = 0 := fun a ha =>
    hat.aligned a ((items_branch.append_right _).mem_iff.mpr ha)
  obtain ⟨holdout, hnd⟩ := List.nodup_cons.mp hnd
  obtain ⟨hRL, hPn, hRLP⟩ := List.nodup_append.mp hnd
  obtain ⟨hRn, hLn, hRLd⟩ := List.nodup_append.mp hRL
  simp only [List.mem_append, not_or] at holdout hRLP
  obtain ⟨⟨holdR, holdL⟩, holdP⟩ := holdout
  have hpathne : ∀ a ∈ pathItems path, a ≠ 0 := fun a ha => (hal a (by simp [ha])).1
  have hRal : ∀ a ∈ (plug (branch .left c .nil y R) lf).items, a ≠ 0 ∧ a % 4 = 0 :=
    fun a ha => hal a (by simp [ha])
  have hperm := (perm_plug (branch .left c .nil y R) lf).trans (items_branch.append_right _)
  have hyR : y ∈ (plug (branch .left c .nil y R) lf).items :=
    hperm.mem_iff.mpr List.mem_cons_self
  have hy04 := hRal y hyR
  have hdescend := descend_end hlf hR (fun a ha => (hRal a ha).1) hfuel
  generalize hs1 : relink .left s (above 0 path) old y = s1
  have e1 : ∀ x, x ∉ pathItems path → s1.nodes x = s.nodes x := fun x hx => hs1 ▸ relink_other hx
  have hR1 : Holds s1.nodes old (plug (branch .left c .nil y R) lf) := hR.congr fun x hx =>
    e1 x fun hm => hRLP x (Or.inl hx) x hm rfl
  have hL1 : Holds s1.nodes old L := hL.congr fun x hx =>
    e1 x fun hm => hRLP x (Or.inr hx) x hm rfl
  have hold1 : s1.nodes old = s.nodes old := e1 old holdP
  have hpath1 : HoldsPath s1.nodes 0 y path := by
    rw [← hs1]
    exact relink_holds hpath hPn hpathne hold.1 holdP
  have hroot1 : ∀ R' : ColoredTree ℕ, s1.rbNode = top (plug (branch .right cp R' y L) path) := fun R' => by
    have hnew := relink_root .left (branch .right cp R' y L) hat.root hpathne old
    rw [top_branch, hs1] at hnew
    exact hnew
  obtain ⟨hfocus, hP1⟩ := (holds_plug _ _).mp hR1
  obtain ⟨hy1, -, hRy1⟩ := holds_branch.mp hfocus
  have habove : above old lf % 4 = 0 := by
    cases lf with
    | nil => exact hold.2
    | cons f lf => exact (hRal _ (hperm.mem_iff.mpr (by simp [pathItems, above]))).2
  have hparent := hy1.parent habove
  have hcolor := hy1.color habove
  have hchild : (s1.nodes y).rbRight = top R := hy1.far
  rw [eraseTwo, h.load, Option.bind_some, show (s.nodes old).rbRight = _ from ho.near, hdescend,
    Option.bind_some, h.parent]
  simp only [hs1, load_node hy04.1, Option.bind_some, hparent, hcolor, hchild]
  cases lf with
  | nil =>
    have hR' : Holds s1.nodes y R := hRy1
    obtain ⟨s₂, h₂, hrep₂⟩ := takePlace_rep (hold1.symm ▸ ho) hL1 hL0 hR' hchild hpath1 (hroot1 R)
      (List.nodup_append.mpr ⟨List.nodup_append.mpr ⟨hRn, hLn, hRLd⟩, hPn, by simpa using hRLP⟩)
      (fun a ha => hal a (List.mem_cons_of_mem _ ha)) hold
    refine ⟨s₂, ?_, hrep₂⟩
    rw [above, if_pos rfl, Option.bind_some, h₂, Option.map_some]
    rfl
  | cons f lf =>
    have hitems : (y :: (plug R (f :: lf)).items).Perm
        (plug (branch .left c .nil y R) (f :: lf)).items :=
      ((perm_plug R (f :: lf)).cons y).trans hperm.symm
    have hne : f.item ≠ old := fun he => holdR (hperm.mem_iff.mpr (by simp [← he, pathItems]))
    have htop : top (plug (branch .left c .nil y R) (f :: lf)) = top (plug R (f :: lf)) :=
      top_plug (by rw [Frame.fill, Frame.fill, top_branch, top_branch]) lf
    obtain ⟨s₂, h₂, hR₂, hy₂, hroot₂, e₂⟩ := unlinkNext_holds (hlf f List.mem_cons_self) hR1 hRn hRal
      hold (by rw [hold1, ← htop]; exact ho.near) holdR
    have hperm' : (y :: ((plug R (f :: lf)).items ++ L.items ++ pathItems path)).Perm
        ((plug (branch .left c .nil y R) (f :: lf)).items ++ L.items ++ pathItems path) :=
      (hitems.append_right _).append_right _
    have hold₂ : Linked (s₂.nodes old) (above 0 path) cp .right (top (plug R (f :: lf))) (top L) := by
      rw [e₂ old holdR, hold1, ← htop]
      exact ho
    obtain ⟨s₃, h₃, hrep₃⟩ := takePlace_rep hold₂
      (hL1.congr fun x hx => e₂ x fun hm => hRLd x hm x hx rfl) hL0 hR₂ hy₂
      (hpath1.congr fun x hx => e₂ x fun hm => hRLP x (Or.inl hm) x hx rfl)
      (hroot₂.trans (hroot1 _)) (hperm'.nodup_iff.mpr hnd)
      (fun a ha => hal a (List.mem_cons_of_mem _ (hperm'.mem_iff.mp ha))) hold
    refine ⟨s₃, ?_, ?_⟩
    · rw [above, if_neg hne, h₂, Option.map_some, Option.bind_some, h₃, Option.map_some]
      rfl
    · rw [plug_append]
      exact hrep₃

/-- What lacks when a node with at most one child is unlinked. -/
theorem lacking_after {d : Side} (fuel : ℕ) (hb : Balanced c n (branch d cp .nil x t)) (hfits : Fits c n path) :
    (cp = .red → RedBlack (plug t path)) ∧
      (cp = .black → path.length < fuel → Lacking fuel t path) := by
  cases cp with
  | red =>
    obtain ⟨rfl, -, ht⟩ := hb.of_red
    exact ⟨fun _ => hfits.mono.plug ht, fun h => (by cases h)⟩
  | black =>
    obtain ⟨m, c₁, c₂, rfl, rfl, hnil, ht⟩ := hb.of_black
    cases hnil
    refine ⟨fun h => (by cases h), fun _ hfuel => ?_⟩
    cases c₂ with
    | black => exact .lower 0 ht hfits hfuel
    | red =>
      obtain ⟨near, a, far, rfl, hn, hf⟩ := ht.exists_red .left
      refine .red .left near a far rfl ?_ (by omega)
      rw [blacken_branch]
      exact hfits.plug (hn.branch_black hf)

/-- The end of `rb_erase`. -/
theorem eraseColor_after (h : Rep s (plug t path))
    (hlack : (cp = .red → RedBlack (plug t path)) ∧
      (cp = .black → path.length < fuel → Lacking fuel t path)) (hfuel : path.length < fuel) :
    ∃ s' T', (if bit cp = 1 then rbEraseColor s (top t) (above 0 path) fuel else some s) = some s' ∧
      Rep s' T' ∧ T'.items = (plug t path).items ∧ RedBlack T' := by
  cases cp with
  | red => exact ⟨s, _, if_neg (by decide), h, rfl, hlack.1 rfl⟩
  | black =>
    rw [if_pos (show bit .black = 1 from rfl)]
    exact rbEraseColor_repairs h (hlack.2 rfl hfuel)

/-- The items of a path do not matter for what fits its hole. -/
theorem fits_rename {side' : Side} {a b : ℕ} {lf : List (Frame ℕ)}
    (h : Fits c n (lf ++ ⟨side', c', a, sibling⟩ :: path)) :
    Fits c n (lf ++ ⟨side', c', b, sibling⟩ :: path) := by
  induction lf generalizing c n with
  | nil =>
    cases h with
    | red hs hp => exact .red hs hp
    | black hs hp => exact .black hs hp
  | cons f lf ih =>
    cases h with
    | red hs hp => exact .red hs (ih hp)
    | black hs hp => exact .black hs (ih hp)

/-- Erasing an item between two lists that do not have it. -/
theorem erase_middle {xs ys : List ℕ} (h : x ∉ xs) : (xs ++ x :: ys).erase x = xs ++ ys := by
  rw [List.erase_append_right _ h, List.erase_cons_head]

/-- Erasing a node from a red-black tree gives a red-black tree with the other nodes. -/
theorem rbErase_repairs (h : Rep s T) (hT : RedBlack T) (hx : x ∈ T.items)
    (hfuel : T.items.length < fuel) :
    ∃ s' T', rbErase s x fuel = some s' ∧ Rep s' T' ∧ T'.items = T.items.erase x ∧ RedBlack T' := by
  obtain ⟨cp, L, R, path, rfl⟩ := exists_plug_of_mem hx
  obtain ⟨c, n, hb, hfits⟩ := hT.split
  have hlen := length_path path
  rw [items_plug] at hfuel
  simp only [ColoredTree.items, List.length_append, List.length_cons] at hfuel
  have hnd := h.nodup
  rw [items_plug, ColoredTree.items] at hnd
  have hbefore : x ∉ before path ++ L.items := fun hm => by
    rw [List.append_assoc, ← List.append_assoc, List.nodup_append] at hnd
    exact hnd.2.2 x hm x (by simp) rfl
  have hitems : (plug (.node cp L x R) path).items.erase x =
      before path ++ (L.items ++ (R.items ++ after path)) := by
    rw [items_plug, ColoredTree.items, List.append_assoc, ← List.append_assoc (before path),
      List.cons_append, erase_middle hbefore, List.append_assoc]
  have hnode : Rep s (plug (branch .left cp L x R) path) := h
  rw [rbErase, hnode.load, Option.bind_some, show (s.nodes x).rbLeft = top L from hnode.linked.near,
    show (s.nodes x).rbRight = top R from hnode.linked.far, hitems]
  have h0 : ∀ t : ColoredTree ℕ, (∀ a ∈ t.items, a ≠ 0) → top t = 0 → t = .nil := fun t ht ht0 => by
    cases t with
    | nil => rfl
    | node c l a r => exact absurd ht0 (ht a (List.mem_append_right _ List.mem_cons_self))
  have hal := (rep_plug.mp hnode).aligned
  have hLal : ∀ a ∈ L.items, a ≠ 0 := fun a ha =>
    (hal a (List.mem_append_left _ (List.mem_append_left _ ha))).1
  have hRal : ∀ a ∈ R.items, a ≠ 0 := fun a ha =>
    (hal a (List.mem_append_left _ (List.mem_append_right _ (List.mem_cons_of_mem _ ha)))).1
  by_cases hL : top L = 0
  · obtain rfl := h0 L hLal hL
    have hone : Rep s (plug (branch .left cp .nil x R) path) := hnode
    obtain ⟨s₁, h₁, hrep₁⟩ := eraseOne_rep hone
    obtain ⟨s₂, T', h₂, hrep₂, hitems₂, hblack⟩ := eraseColor_after hrep₁
      (lacking_after (d := .left) fuel hb hfits) (by omega)
    exact ⟨s₂, T', by rw [if_pos hL, h₁, Option.bind_some, h₂], hrep₂,
      by rw [hitems₂, items_plug]; rfl, hblack⟩
  · rw [if_neg hL]
    by_cases hR : top R = 0
    · obtain rfl := h0 R hRal hR
      have hone : Rep s (plug (branch .right cp .nil x L) path) := hnode
      obtain ⟨s₁, h₁, hrep₁⟩ := eraseOne_rep hone
      obtain ⟨s₂, T', h₂, hrep₂, hitems₂, hblack⟩ := eraseColor_after hrep₁
        (lacking_after (d := .right) fuel hb hfits) (by omega)
      exact ⟨s₂, T', by rw [if_pos hR, h₁, Option.bind_some, h₂], hrep₂,
        by rw [hitems₂, items_plug]; rfl, hblack⟩
    · rw [if_neg hR]
      cases R with
      | nil => exact absurd rfl hR
      | node cr rl ra rr =>
        obtain ⟨cy, y, far, lf, heq, hlf⟩ := exists_end .left cr rl ra rr
        have htwo : Rep s (plug (branch .right cp (plug (branch .left cy .nil y far) lf) x L) path) := by
          rw [← heq]
          exact hnode
        have hlenR : lf.length + 1 ≤ (ColoredTree.node cr rl ra rr).items.length := by
          have hlf' := length_path lf
          rw [heq, items_plug]
          simp only [branch, ColoredTree.items, List.length_append, List.length_cons, List.length_nil]
          omega
        obtain ⟨s₁, h₁, hrep₁⟩ := eraseTwo_rep hlf hL htwo fuel (by omega)
        have hT' : RedBlack (plug (branch .left cy .nil y far)
            (lf ++ ⟨.right, cp, x, L⟩ :: path)) := by
          rw [plug_append, ← heq]
          exact hT
        obtain ⟨c', n', hb', hfits'⟩ := hT'.split
        have hlen' : (lf ++ ⟨.right, cp, y, L⟩ :: path).length < fuel := by
          rw [List.length_append, List.length_cons]
          omega
        obtain ⟨s₂, T', h₂, hrep₂, hitems₂, hblack⟩ := eraseColor_after hrep₁
          (lacking_after (d := .left) fuel hb' (fits_rename hfits')) hlen'
        refine ⟨s₂, T', by rw [h₁, Option.bind_some, h₂], hrep₂, ?_, hblack⟩
        have hfar : (plug far lf).items = far.items ++ after lf := by
          rw [items_plug, before_left hlf, List.nil_append]
        have hnext : (plug (branch .left cy .nil y far) lf).items = y :: (far.items ++ after lf) := by
          rw [items_plug, before_left hlf]
          rfl
        rw [hitems₂, plug_append, items_plug, heq, hnext, before, after, hfar]
        simp only [List.append_assoc, List.cons_append, List.nil_append]

/-- `rb_link_node` with `rb_insert_color`, and `rb_erase`, return red-black trees whose nodes in
order are the old ones with the new node at the linked place, or without the erased one. A relation
between all nodes in order, such as that of their keys, is kept when the new node is linked between
the nodes it separates. -/
theorem rbtree_operations (h : Rep s T) (hT : RedBlack T) (fuel : ℕ) (hfuel : T.items.length < fuel) :
    (∀ (x : ℕ) (path : List (Frame ℕ)), T = plug .nil path → x ≠ 0 → x % 4 = 0 → x ∉ T.items →
      ∃ s' T', rbInsertColor (rbLinkNode s x (above 0 path) (linkOf path)) x fuel = some s' ∧
        Rep s' T' ∧ RedBlack T' ∧ T.items = before path ++ after path ∧
        T'.items = before path ++ x :: after path ∧
        ∀ R : ℕ → ℕ → Prop, T.items.Pairwise R → (∀ a ∈ before path, R a x) →
          (∀ b ∈ after path, R x b) → T'.items.Pairwise R) ∧
      ∀ x ∈ T.items, ∃ s' T', rbErase s x fuel = some s' ∧ Rep s' T' ∧ RedBlack T' ∧
        T'.items = T.items.erase x ∧ ∀ R : ℕ → ℕ → Prop, T.items.Pairwise R → T'.items.Pairwise R := by
  constructor
  · rintro x path rfl hx0 hx4 hnew
    have hold : (plug .nil path).items = before path ++ after path := by
      rw [items_plug, ColoredTree.items, List.nil_append]
    have hlen := length_path path
    rw [hold, List.length_append] at hfuel
    obtain ⟨s', T', hs', hrep, hitems, hblack⟩ := rbLink_repairs h hT ⟨hx0, hx4⟩ hnew fuel (by omega)
    refine ⟨s', T', hs', hrep, hblack, hold, hitems, fun R hR hb ha => ?_⟩
    rw [hold, List.pairwise_append] at hR
    rw [hitems, List.pairwise_append, List.pairwise_cons]
    refine ⟨hR.1, ⟨ha, hR.2.1⟩, fun a hm b hm' => ?_⟩
    rcases List.mem_cons.mp hm' with rfl | hm'
    · exact hb a hm
    · exact hR.2.2 a hm b hm'
  · intro x hx
    obtain ⟨s', T', hs', hrep, hitems, hblack⟩ := rbErase_repairs h hT hx hfuel
    exact ⟨s', T', hs', hrep, hblack, hitems, fun R hR =>
      hitems ▸ hR.sublist List.erase_sublist⟩

/-- The nodes of a black root at 16 with children at 8 and 24, which have this colour. -/
def threeNodes (color : ℕ) : RbTree := ⟨16, fun a => if a = 16 then ⟨1, 24, 8⟩ else ⟨16 + color, 0, 0⟩⟩

/-- The node at 32 below the red one at 24 turns that one black, and the loss of the black node at
8 turns its black sibling at 24 red. -/
theorem rbtree_operations_recolor :
    (∃ s' T', rbInsertColor (rbLinkNode (threeNodes 0) 32 24 (.child 24 .right)) 32 4 = some s' ∧
        Rep s' T' ∧ RedBlack T' ∧ T'.items = [8, 16, 24, 32] ∧ rbIsRed (s'.nodes 24) = false) ∧
      ∃ s' T', rbErase (threeNodes 1) 8 4 = some s' ∧ Rep s' T' ∧ RedBlack T' ∧
        T'.items = [16, 24] ∧ rbIsRed (s'.nodes 24) = true := by
  have hred : Rep (threeNodes 0) (.node .black (.node .red .nil 8 .nil) 16 (.node .red .nil 24 .nil)) :=
    ⟨rfl, ⟨rfl, ⟨rfl, trivial, trivial⟩, rfl, trivial, trivial⟩, by decide, by decide⟩
  have hblack : Rep (threeNodes 1)
      (.node .black (.node .black .nil 8 .nil) 16 (.node .black .nil 24 .nil)) :=
    ⟨rfl, ⟨rfl, ⟨rfl, trivial, trivial⟩, rfl, trivial, trivial⟩, by decide, by decide⟩
  have hturned : (rbInsertColor (rbLinkNode (threeNodes 0) 32 24 (.child 24 .right)) 32 4).map
      (fun s => rbIsRed (s.nodes 24)) = some false := by decide
  have hfaded : (rbErase (threeNodes 1) 8 4).map (fun s => rbIsRed (s.nodes 24)) = some true := by
    decide
  obtain ⟨hinsert, -⟩ := rbtree_operations hred ⟨1, .black (.red .nil .nil) (.red .nil .nil)⟩ 4
    (by decide)
  obtain ⟨-, herase⟩ := rbtree_operations hblack
    ⟨2, .black (.black .nil .nil) (.black .nil .nil)⟩ 4 (by decide)
  obtain ⟨s₁, T₁, h₁, hrep₁, hblack₁, -, hitems₁, -⟩ :=
    hinsert 32 [⟨.right, .red, 24, .nil⟩, ⟨.right, .black, 16, .node .red .nil 8 .nil⟩] rfl
      (by decide) (by decide) (by decide)
  obtain ⟨s₂, T₂, h₂, hrep₂, hblack₂, hitems₂, -⟩ := herase 8 (by decide)
  have hlinked : rbInsertColor (rbLinkNode (threeNodes 0) 32 24 (.child 24 .right)) 32 4 = some s₁ :=
    h₁
  rw [hlinked] at hturned
  rw [h₂] at hfaded
  exact ⟨⟨s₁, T₁, hlinked, hrep₁, hblack₁, hitems₁, Option.some.inj hturned⟩, s₂, T₂, h₂, hrep₂,
    hblack₂, hitems₂, Option.some.inj hfaded⟩

end BiscuitOS.RbtreeErase
