import BiscuitOS.RbtreeErase

/-!
# Walks through red-black trees

`rb_next` and `rb_prev` give the neighbours of a node in the order of the
tree, `rb_first` and `rb_last` its ends. A loop down the tree ends at a hole
whose path is made of the decisions on the way.
-/

namespace BiscuitOS.RbtreeWalk

open ColorTree RbtreeModel RbtreeHeap RbtreeErase

variable {s : RbTree} {x fuel : ℕ} {side : Side} {c : Color} {t near far T : ColoredTree ℕ}
  {path : List (Frame ℕ)}

/-- The item next to a hole towards a side, zero for none. -/
def nextOf (side : Side) : List (Frame ℕ) → ℕ
  | [] => 0
  | f :: path => if f.side = side then nextOf side path else f.item

/-- The item on the right of a hole. -/
theorem nextOf_right (path : List (Frame ℕ)) : nextOf .right path = (after path).headD 0 := by
  induction path with
  | nil => rfl
  | cons f path ih =>
    rw [nextOf, after]
    cases f.side with
    | left => rw [if_neg (by decide), List.headD_cons]
    | right => rw [if_pos rfl, ih]

/-- The item on the left of a hole. -/
theorem nextOf_left (path : List (Frame ℕ)) : nextOf .left path = (before path).getLastD 0 := by
  induction path with
  | nil => rfl
  | cons f path ih =>
    rw [nextOf, before]
    cases f.side with
    | left => rw [if_pos rfl, ih]
    | right => rw [if_neg (by decide), ← List.append_assoc, List.getLastD_concat]

/-- The way up to the first node that is not on the side of its parent. -/
theorem ascend_nextOf (h : Rep s (plug (branch side c near x far) path))
    (hfuel : path.length < fuel) : ascend side s x fuel = some (nextOf side path) := by
  induction path generalizing c near x far fuel with
  | nil =>
    obtain ⟨fuel, rfl⟩ := Nat.exists_eq_succ_of_ne_zero (Nat.ne_of_gt hfuel)
    rw [Nat.succ_eq_add_one, ascend, h.load, Option.bind_some, h.parent]
    exact if_neg fun hc => hc.1 rfl
  | cons f path ih =>
    obtain ⟨fuel, rfl⟩ := Nat.exists_eq_succ_of_ne_zero (Nat.ne_of_gt (Nat.zero_lt_of_lt hfuel))
    rw [List.length_cons] at hfuel
    have hx : x ≠ 0 := (rep_plug.mp h).node_aligned.1
    rw [Nat.succ_eq_add_one, ascend, h.load, Option.bind_some, h.parent, nextOf]
    dsimp only [above]
    obtain ⟨fside, fc, p, sibling⟩ := f
    have hp : Rep s (plug (branch fside fc (branch side c near x far) p sibling) path) := h
    have hp0 : p ≠ 0 := (rep_plug.mp hp).node_aligned.1
    have hchild : (s.nodes p).child fside = x := by rw [hp.linked.near, top_branch]
    by_cases hs : fside = side
    · subst hs
      rw [if_pos ⟨hp0, hchild.symm⟩, if_pos rfl]
      exact ih hp (by omega)
    · have ho : side = fside.other := by
        cases side <;> cases fside <;> simp_all [Side.other]
      subst ho
      have hne := hp.near_ne_far (by rw [top_branch]; exact hx)
      rw [top_branch] at hne
      rw [if_neg fun hc => hne (hc.2.trans hp.linked.far).symm, if_neg hs]

/-- The last item on a side. -/
def endOf (side : Side) (t : ColoredTree ℕ) : ℕ :=
  match side with
  | .left => t.items.headD 0
  | .right => t.items.getLastD 0

/-- The last item on a side hangs at the end of a path of that side. -/
theorem endOf_plug (side : Side) (c : Color) (x : ℕ) (far : ColoredTree ℕ) {path : List (Frame ℕ)}
    (hpath : ∀ f ∈ path, f.side = side) : endOf side (plug (branch side c .nil x far) path) = x := by
  cases side with
  | left =>
    rw [endOf, items_plug, before_left hpath]
    rfl
  | right =>
    have hafter : after path = [] := by
      induction path with
      | nil => rfl
      | cons f path ih =>
        rw [after, hpath f List.mem_cons_self]
        exact ih fun g hg => hpath g (List.mem_cons_of_mem _ hg)
    rw [endOf, items_plug, hafter, List.append_nil, branch, ColoredTree.items, ColoredTree.items,
      ← List.append_assoc, List.getLastD_concat]

/-- Going down on one side ends at the last item on that side. -/
theorem descend_endOf {p : ℕ} (h : Holds s.nodes p t) (hne : ∀ a ∈ t.items, a ≠ 0) (ht : top t ≠ 0)
    (hfuel : t.items.length < fuel) : descend side s (top t) fuel = some (endOf side t) := by
  cases t with
  | nil => exact absurd rfl ht
  | node c l a r =>
    obtain ⟨c', y, far, lf, heq, hlf⟩ := exists_end side c l a r
    rw [heq] at h hne hfuel ⊢
    have hlen := length_path lf
    rw [items_plug, List.length_append, List.length_append] at hfuel
    rw [descend_end hlf h hne (by omega), endOf_plug side c' y far hlf]

/-- The neighbour of a node towards a side. -/
theorem neighbor_rep (h : Rep s (plug (branch side c near x far) path))
    (hfuel : (plug (branch side c near x far) path).items.length < fuel) :
    neighbor side s x fuel =
      some (if top near = 0 then nextOf side path else endOf side.other near) := by
  have hat := rep_plug.mp h
  have hlen := length_path path
  have hperm := (perm_plug (branch side c near x far) path).length_eq
  have hitems : (branch side c near x far).items.length = (x :: (near.items ++ far.items)).length :=
    items_branch.length_eq
  rw [List.length_append] at hperm
  rw [List.length_cons, List.length_append] at hitems
  have hpath : path.length ≤ (pathItems path).length := by
    rw [← (items_path path).length_eq, List.length_append]
    exact hlen
  have hparent : rbParent (s.nodes x) ≠ x := by
    rw [h.parent]
    intro he
    have h0 : above 0 path ≠ 0 := he ▸ hat.node_aligned.1
    have hm := above_mem h0
    rw [he] at hm
    exact (List.nodup_cons.mp hat.apart).1 (List.mem_append_right _ hm)
  rw [neighbor, h.load, Option.bind_some, if_neg hparent, h.linked.near]
  by_cases h0 : top near = 0
  · rw [if_neg (not_not.mpr h0), if_pos h0]
    exact ascend_nextOf h (by omega)
  · rw [if_pos h0, if_neg h0]
    refine descend_endOf hat.branch.2.1 (fun a ha => ?_) h0 (by omega)
    exact (hat.aligned a (List.mem_append_left _ (items_branch.mem_iff.mpr
      (List.mem_cons_of_mem _ (List.mem_append_left _ ha))))).1

/-- A tree without a root has no items. -/
theorem items_of_top (hne : ∀ a ∈ t.items, a ≠ 0) (h0 : top t = 0) : t.items = [] := by
  cases t with
  | nil => rfl
  | node c l a r => exact absurd h0 (hne a (List.mem_append_right _ List.mem_cons_self))

/-- The items on both sides of a node. -/
theorem items_split {xs ys : List ℕ} {l r : ColoredTree ℕ} (hnodup : (plug (.node c l x r) path).items.Nodup)
    (h : (plug (.node c l x r) path).items = xs ++ x :: ys) :
    xs = before path ++ l.items ∧ ys = r.items ++ after path := by
  have hsame : before path ++ l.items ++ x :: (r.items ++ after path) = xs ++ x :: ys := by
    rw [← h, items_plug, ColoredTree.items]
    simp only [List.append_assoc, List.cons_append]
  rw [← hsame] at h
  rw [h] at hnodup
  have hnd := List.nodup_append.mp hnodup
  obtain ⟨h1, -, h2⟩ := (List.append_cons_inj_of_notMem
    (fun hm => hnd.2.2 x hm x List.mem_cons_self rfl) (List.nodup_cons.mp hnd.2.1).1).mp hsame
  exact ⟨h1.symm, h2.symm⟩

/-- The nodes of a tree are not `NULL`. -/
theorem Rep.subtree_ne (h : Rep s (plug t path)) : ∀ a ∈ t.items, a ≠ 0 := fun a ha =>
  ((rep_plug.mp h).aligned a (List.mem_append_left _ ha)).1

/-- `rb_next` gives the next item, `NULL` after the last one. -/
theorem rbNext_rep {xs ys : List ℕ} (h : Rep s T) (hitems : T.items = xs ++ x :: ys)
    (hfuel : T.items.length < fuel) : rbNext s x fuel = some (ys.headD 0) := by
  have hx : x ∈ T.items := hitems ▸ List.mem_append_right _ List.mem_cons_self
  obtain ⟨c, l, r, path, rfl⟩ := exists_plug_of_mem hx
  obtain ⟨-, rfl⟩ := items_split h.nodup hitems
  have hnode : Rep s (plug (branch .right c r x l) path) := h
  have hright : Rep s (plug r (⟨.right, c, x, l⟩ :: path)) := hnode
  rw [rbNext, neighbor_rep hnode hfuel]
  split
  · rename_i h0
    rw [items_of_top (Rep.subtree_ne hright) h0, nextOf_right, List.nil_append]
  · rename_i h0
    obtain ⟨a, as, ha⟩ := List.exists_cons_of_ne_nil (List.ne_nil_of_mem (top_mem h0))
    rw [Side.other, endOf, ha, List.cons_append, List.headD_cons, List.headD_cons]

/-- `rb_prev` gives the previous item, `NULL` before the first one. -/
theorem rbPrev_rep {xs ys : List ℕ} (h : Rep s T) (hitems : T.items = xs ++ x :: ys)
    (hfuel : T.items.length < fuel) : rbPrev s x fuel = some (xs.getLastD 0) := by
  have hx : x ∈ T.items := hitems ▸ List.mem_append_right _ List.mem_cons_self
  obtain ⟨c, l, r, path, rfl⟩ := exists_plug_of_mem hx
  obtain ⟨rfl, -⟩ := items_split h.nodup hitems
  have hnode : Rep s (plug (branch .left c l x r) path) := h
  have hleft : Rep s (plug l (⟨.left, c, x, r⟩ :: path)) := hnode
  rw [rbPrev, neighbor_rep hnode hfuel]
  split
  · rename_i h0
    rw [items_of_top (Rep.subtree_ne hleft) h0, nextOf_left, List.append_nil]
  · rename_i h0
    have hne : l.items ≠ [] := List.ne_nil_of_mem (top_mem h0)
    rw [Side.other, endOf, List.getLastD_eq_getLast?, List.getLastD_eq_getLast?,
      List.getLast?_append_of_ne_nil _ hne]

/-- `rb_first` and `rb_last` give the ends of the tree. -/
theorem rbEnd_rep (h : Rep s T) (hfuel : T.items.length < fuel) :
    rbEnd side s fuel = some (endOf side T) := by
  have hne : ∀ a ∈ T.items, a ≠ 0 := fun a ha => (h.aligned a ha).1
  rw [rbEnd, h.root]
  split
  · rename_i h0
    cases side with
    | left => rw [endOf, items_of_top hne h0]; rfl
    | right => rw [endOf, items_of_top hne h0]; rfl
  · rename_i h0
    exact descend_endOf h.holds hne h0 hfuel

/-- A loop down a tree keeps a property of what it keeps and of the part of the tree still to be
seen, until it ends in what is wanted. -/
theorem walk_rep {σ : Type*} {visit : σ → ℕ → Option (σ × Option Side)}
    {inv : σ → ColoredTree ℕ → List (Frame ℕ) → Prop} {done : σ → Prop} {kept : σ}
    (path : List (Frame ℕ)) (h : Rep s (plug t path))
    (hstep : ∀ (kept : σ) (c : Color) (l : ColoredTree ℕ) (a : ℕ) (r : ColoredTree ℕ) (path' : List (Frame ℕ)),
      plug (.node c l a r) path' = plug t path → inv kept (.node c l a r) path' →
      ∃ kept' next, visit kept a = some (kept', next) ∧
        (next = none → done kept') ∧
        (next = some .left → inv kept' l (⟨.left, c, a, r⟩ :: path')) ∧
        (next = some .right → inv kept' r (⟨.right, c, a, l⟩ :: path')))
    (hnil : ∀ (kept : σ) (path' : List (Frame ℕ)), plug .nil path' = plug t path →
      inv kept .nil path' → done kept)
    (hinit : inv kept t path) (hfuel : t.items.length < fuel) :
    ∃ kept', walk s visit kept (top t) fuel = some kept' ∧ done kept' := by
  induction t generalizing kept path fuel with
  | nil =>
    obtain ⟨fuel, rfl⟩ := Nat.exists_eq_succ_of_ne_zero (Nat.ne_of_gt (Nat.zero_lt_of_lt hfuel))
    exact ⟨kept, if_pos rfl, hnil kept path rfl hinit⟩
  | node c l a r ihl ihr =>
    obtain ⟨fuel, rfl⟩ := Nat.exists_eq_succ_of_ne_zero (Nat.ne_of_gt (Nat.zero_lt_of_lt hfuel))
    rw [ColoredTree.items, List.length_append, List.length_cons] at hfuel
    have hleft : Rep s (plug (branch .left c l a r) path) := h
    have ha : a ≠ 0 := (rep_plug.mp hleft).node_aligned.1
    obtain ⟨kept', next, hvisit, hdone, hl, hr⟩ := hstep kept c l a r path rfl hinit
    rw [Nat.succ_eq_add_one, walk, top, if_neg ha, hvisit, Option.bind_some]
    cases next with
    | none => exact ⟨kept', rfl, hdone rfl⟩
    | some side =>
      cases side with
      | left =>
        have hchild : (s.nodes a).child .left = top l := hleft.linked.near
        rw [← hchild] at ihl
        exact ihl (⟨.left, c, a, r⟩ :: path) h hstep hnil (hl rfl) (by omega)
      | right =>
        have hchild : (s.nodes a).child .right = top r := hleft.linked.far
        rw [← hchild] at ihr
        exact ihr (⟨.right, c, a, l⟩ :: path) h hstep hnil (hr rfl) (by omega)

end BiscuitOS.RbtreeWalk
