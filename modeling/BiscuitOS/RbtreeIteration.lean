import BiscuitOS.RbtreeWalk

/-!
# Iteration over trees

From `rb_first` on with `rb_next` the nodes are seen in the order of the tree,
and from `rb_last` on with `rb_prev` in the reverse order. Nothing depends on
the colours. `rb_replace_node` puts a node into the place of another one.
-/

namespace BiscuitOS.RbtreeIteration

open ColorTree RbtreeModel RbtreeHeap RbtreeErase RbtreeWalk

variable {s : RbTree} {x new fuel : ℕ} {side : Side} {c : Color} {near far T : ColoredTree ℕ}
  {path : List (Frame ℕ)}

/-- The items of a tree in the order in which a loop towards a side sees them. -/
def inOrder (side : Side) (T : ColoredTree ℕ) : List ℕ :=
  match side with
  | .right => T.items
  | .left => T.items.reverse

/-- Both orders have the same length. -/
theorem length_inOrder (side : Side) (T : ColoredTree ℕ) :
    (inOrder side T).length = T.items.length := by
  cases side with
  | left => exact List.length_reverse
  | right => rfl

/-- Both orders have the same items. -/
theorem mem_inOrder (side : Side) : x ∈ inOrder side T ↔ x ∈ T.items := by
  cases side with
  | left => exact List.mem_reverse
  | right => rfl

/-- The last item of a reversed list is the first one of the list. -/
theorem getLastD_reverse (xs : List ℕ) : xs.reverse.getLastD 0 = xs.headD 0 := by
  cases xs with
  | nil => rfl
  | cons x xs => rw [List.reverse_cons, List.getLastD_concat, List.headD_cons]

/-- The neighbour of a node towards a side is the next item in the order of the side. -/
theorem neighbor_inOrder {xs ys : List ℕ} (h : Rep s T) (horder : inOrder side T = xs ++ x :: ys)
    (hfuel : T.items.length < fuel) : neighbor side s x fuel = some (ys.headD 0) := by
  cases side with
  | right => exact rbNext_rep h horder hfuel
  | left =>
    have hitems : T.items = ys.reverse ++ x :: xs.reverse := by
      rw [← List.reverse_reverse T.items, show T.items.reverse = xs ++ x :: ys from horder]
      simp
    have hprev := rbPrev_rep h hitems hfuel
    rw [getLastD_reverse] at hprev
    exact hprev

/-- The end of a tree opposite to a side is the first item in the order of the side. -/
theorem endOf_inOrder (side : Side) (T : ColoredTree ℕ) :
    endOf side.other T = (inOrder side T).headD 0 := by
  cases side with
  | right => rfl
  | left =>
    have hlast := getLastD_reverse T.items.reverse
    rw [List.reverse_reverse] at hlast
    exact hlast

/-- A loop towards a side sees the rest of the items. -/
theorem visitFrom_inOrder (h : Rep s T) (hfuel : T.items.length < fuel) {ys : List ℕ} :
    ∀ (xs : List ℕ) (rounds : ℕ), inOrder side T = xs ++ ys → ys.length < rounds →
      visitFrom side s fuel rounds (ys.headD 0) = some ys := by
  induction ys with
  | nil =>
    intro xs rounds horder hrounds
    obtain ⟨rounds, rfl⟩ := Nat.exists_eq_succ_of_ne_zero (Nat.ne_of_gt hrounds)
    exact if_pos rfl
  | cons y ys ih =>
    intro xs rounds horder hrounds
    obtain ⟨rounds, rfl⟩ := Nat.exists_eq_succ_of_ne_zero (Nat.ne_of_gt (Nat.zero_lt_of_lt hrounds))
    rw [List.length_cons] at hrounds
    have hy : y ∈ T.items :=
      (mem_inOrder side).mp (horder ▸ List.mem_append_right _ List.mem_cons_self)
    have hrest := ih (xs ++ [y]) rounds (by rw [horder, List.append_assoc]; rfl) (by omega)
    rw [Nat.succ_eq_add_one, visitFrom, List.headD_cons, if_neg (h.aligned y hy).1,
      neighbor_inOrder h horder hfuel, Option.bind_some, hrest, Option.map_some]

/-- A loop over the whole tree sees its items in the order of the side. -/
theorem enumerate_inOrder (h : Rep s T) (hfuel : T.items.length < fuel) (side : Side) :
    enumerate side s fuel = some (inOrder side T) := by
  rw [enumerate, rbEnd_rep h hfuel, Option.bind_some, endOf_inOrder]
  exact visitFrom_inOrder h hfuel [] fuel rfl (by rwa [length_inOrder])

/-- The node after another one has it as the node before. -/
theorem neighbor_back {y : ℕ} (h : Rep s T) (hfuel : T.items.length < fuel) (hx : x ∈ T.items)
    (hy : y ∈ T.items) (hnext : neighbor side s x fuel = some y) :
    neighbor side.other s y fuel = some x := by
  have hreverse : inOrder side.other T = (inOrder side T).reverse := by
    cases side with
    | left => exact (List.reverse_reverse T.items).symm
    | right => rfl
  obtain ⟨xs, ys, horder⟩ := List.append_of_mem ((mem_inOrder side).mpr hx)
  rw [neighbor_inOrder h horder hfuel, Option.some.injEq] at hnext
  cases ys with
  | nil => exact absurd hnext.symm (h.aligned y hy).1
  | cons z zs =>
    rw [List.headD_cons] at hnext
    subst hnext
    have hback : inOrder side.other T = zs.reverse ++ z :: (x :: xs.reverse) := by
      rw [hreverse, horder]
      simp
    rw [neighbor_inOrder h hback hfuel, List.headD_cons]

/-- A node takes the place of another one. -/
theorem rbReplaceNode_rep (h : Rep s (plug (.node c near x far) path))
    (hnew : new ≠ 0 ∧ new % 4 = 0) (hfresh : new ∉ near.items ++ far.items ++ pathItems path) :
    ∃ s', rbReplaceNode s x new = some s' ∧ Rep s' (plug (.node c near new far) path) := by
  have hnode : Rep s (plug (branch .left c near x far) path) := h
  have hat := rep_plug.mp hnode
  obtain ⟨hx, hnear, hfar⟩ := hat.branch
  have hx0 := hat.node_aligned
  have hpath := hat.parents
  rw [top_branch] at hpath
  have hnd := hat.apart
  simp only [List.nodup_cons, List.nodup_append, List.mem_append, not_or] at hnd hfresh
  obtain ⟨⟨⟨hxn, hxf⟩, hxp⟩, ⟨hnn, hfn, hnf⟩, hpn, hnfp⟩ := hnd
  obtain ⟨⟨hnewn, hnewf⟩, hnewp⟩ := hfresh
  have hne : ∀ a ∈ near.items ++ far.items ++ pathItems path, a ≠ 0 ∧ a % 4 = 0 := fun a ha =>
    hat.aligned a ((items_branch.append_right _).mem_iff.mpr (List.mem_cons_of_mem _ ha))
  generalize hs1 : relink .left s (above 0 path) x new = s1
  have e1 : ∀ a, a ∉ pathItems path → s1.nodes a = s.nodes a := fun a ha => by
    rw [← hs1, relink_other ha]
  have hnear1 : Holds s1.nodes x near :=
    hnear.congr fun a ha => e1 a fun hm => hnfp a (.inl ha) a hm rfl
  have hfar1 : Holds s1.nodes x far :=
    hfar.congr fun a ha => e1 a fun hm => hnfp a (.inr ha) a hm rfl
  have hpath1 : HoldsPath s1.nodes 0 new path := by
    rw [← hs1]
    exact relink_holds hpath hpn (fun a ha => (hne a (List.mem_append_right _ ha)).1) hx0.1 hxp
  generalize hs2 : modifySome s1 (top near) (rbSetParent new) = s2
  have e2 : ∀ a, a ∉ near.items → s2.nodes a = s1.nodes a := fun a ha => by
    rw [← hs2, modifySome_other _ ha]
  have hnear2 : Holds s2.nodes new near := by
    rw [← hs2]
    exact hnear1.adopt hnn (fun a ha => (hne a (by simp [ha])).1) hx0.2 hnew.2
  have hfar2 : Holds s2.nodes x far :=
    hfar1.congr fun a ha => e2 a fun hm => hnf a hm a ha rfl
  generalize hs3 : modifySome s2 (top far) (rbSetParent new) = s3
  have e3 : ∀ a, a ∉ far.items → s3.nodes a = s2.nodes a := fun a ha => by
    rw [← hs3, modifySome_other _ ha]
  have hfar3 : Holds s3.nodes new far := by
    rw [← hs3]
    exact hfar2.adopt hfn (fun a ha => (hne a (by simp [ha])).1) hx0.2 hnew.2
  have hnode3 : s3.nodes x = s.nodes x := by rw [e3 x hxf, e2 x hxn, e1 x hxp]
  have hroot : s3.rbNode = top (plug (branch .left c near new far) path) := by
    have hroot1 := relink_root .left (branch .left c near new far) hat.root
      (fun a ha => (hne a (List.mem_append_right _ ha)).1) x
    rw [top_branch, hs1] at hroot1
    rw [← hs3, modifySome_root, ← hs2, modifySome_root, hroot1]
  refine ⟨store s3 new fun _ => s3.nodes x, ?_, ?_⟩
  · have hleft : (s1.nodes x).rbLeft = top near := by
      rw [e1 x hxp]
      exact hx.near
    have hright : (s2.nodes x).rbRight = top far := by
      rw [e2 x hxn, e1 x hxp]
      exact hx.far
    rw [rbReplaceNode, hnode.load, Option.bind_some, hnode.parent]
    dsimp only
    rw [hs1, hleft, hs2, hright, hs3, modify_node _ hnew.1]
  · have e4 : ∀ a, a ≠ new → (store s3 new fun _ => s3.nodes x).nodes a = s3.nodes a :=
      fun a ha => store_other _ ha
    have hrep : RepAt (store s3 new fun _ => s3.nodes x) (branch .left c near new far) path := by
      constructor
      · rw [store_root, hroot]
      · refine holds_branch.mpr ⟨?_, ?_, ?_⟩
        · rw [store_self, hnode3]
          exact hx
        · refine hnear2.congr fun a ha => ?_
          rw [e4 a fun he => hnewn (he ▸ ha), e3 a fun hm => hnf a ha a hm rfl]
        · exact hfar3.congr fun a ha => e4 a fun he => hnewf (he ▸ ha)
      · rw [top_branch]
        refine hpath1.congr fun a ha => ?_
        rw [e4 a fun he => hnewp (he ▸ ha), e3 a fun hm => hnfp a (.inr hm) a ha rfl,
          e2 a fun hm => hnfp a (.inl hm) a ha rfl]
      · refine (items_branch.append_right _).nodup_iff.mpr (List.nodup_cons.mpr ⟨?_, ?_⟩)
        · simp [hnewn, hnewf, hnewp]
        · exact (List.nodup_cons.mp hat.apart).2
      · intro a ha
        rcases List.mem_cons.mp ((items_branch.append_right _).mem_iff.mp ha) with rfl | hm
        · exact hnew
        · exact hne a hm
    exact rep_plug.mpr hrep

/-- Replacing an item that occurs once. -/
theorem map_replace {xs ys : List ℕ} {old new : ℕ} (hnodup : (xs ++ old :: ys).Nodup) :
    (xs ++ old :: ys).map (fun x => if x = old then new else x) = xs ++ new :: ys := by
  have hnd := List.nodup_append.mp hnodup
  have hkeep : ∀ zs : List ℕ, old ∉ zs → zs.map (fun x => if x = old then new else x) = zs := by
    intro zs hzs
    have hsame : ∀ a ∈ zs, (if a = old then new else a) = id a := by
      intro a ha
      have hne : a ≠ old := fun he => hzs (he ▸ ha)
      exact if_neg hne
    rw [List.map_congr_left hsame, List.map_id]
  rw [List.map_append, List.map_cons, if_pos rfl, hkeep xs, hkeep ys]
  · exact (List.nodup_cons.mp hnd.2.1).1
  · exact fun hm => hnd.2.2 old hm old List.mem_cons_self rfl

/-- Iteration over a tree sees its items in order, in both directions, which are inverse to each
other, and a node that takes the place of another one is seen in its place. -/
theorem rbtree_iteration (h : Rep s T) (hfuel : T.items.length < fuel) :
    enumerate .right s fuel = some T.items ∧ enumerate .left s fuel = some T.items.reverse ∧
      (∀ x ∈ T.items, ∀ y ∈ T.items, rbNext s x fuel = some y ↔ rbPrev s y fuel = some x) ∧
      ∀ victim ∈ T.items, ∀ new, new ≠ 0 → new % 4 = 0 → (new ∈ T.items → new = victim) →
        ∃ s', rbReplaceNode s victim new = some s' ∧
          enumerate .right s' fuel = some (T.items.map fun x => if x = victim then new else x) ∧
          enumerate .left s' fuel =
            some (T.items.map fun x => if x = victim then new else x).reverse := by
  refine ⟨enumerate_inOrder h hfuel .right, enumerate_inOrder h hfuel .left, ?_, ?_⟩
  · intro x hx y hy
    constructor
    · exact neighbor_back h hfuel hx hy
    · exact neighbor_back h hfuel hy hx
  · intro victim hvictim new hnew0 hnew4 hfresh
    obtain ⟨c, l, r, path, rfl⟩ := exists_plug_of_mem hvictim
    have hnode : Rep s (plug (branch .left c l victim r) path) := h
    have hout := (List.nodup_cons.mp (rep_plug.mp hnode).apart).1
    have hin : ∀ a ∈ l.items ++ r.items ++ pathItems path,
        a ∈ (plug (branch .left c l victim r) path).items := fun a ha =>
      (perm_plug _ path).mem_iff.mpr
        ((items_branch.append_right _).mem_iff.mpr (List.mem_cons_of_mem _ ha))
    obtain ⟨s', hs', hrep⟩ := rbReplaceNode_rep h ⟨hnew0, hnew4⟩ fun hm =>
      hout (hfresh (hin new hm) ▸ hm)
    have hsplit : ∀ a, (plug (.node c l a r) path).items =
        (before path ++ l.items) ++ a :: (r.items ++ after path) := fun a => by
      rw [items_plug, ColoredTree.items]
      simp
    have hitems : (plug (.node c l new r) path).items =
        (plug (.node c l victim r) path).items.map fun x => if x = victim then new else x := by
      have hnodup := h.nodup
      rw [hsplit] at hnodup
      rw [hsplit, hsplit, map_replace hnodup]
    have hlen : (plug (.node c l new r) path).items.length < fuel := by
      rwa [hitems, List.length_map]
    rw [← hitems]
    exact ⟨s', hs', enumerate_inOrder hrep hlen .right, enumerate_inOrder hrep hlen .left⟩

/-- The nodes at 8 and 16 of a tree are seen in order, and the node at 24 in the place of 8. -/
theorem rbtree_iteration_pair : ∃ s, enumerate .right s 3 = some [8, 16] ∧
    enumerate .left s 3 = some [16, 8] ∧
    ∃ s', rbReplaceNode s 8 24 = some s' ∧ enumerate .right s' 3 = some [24, 16] := by
  have hrep : Rep ⟨8, fun a => if a = 8 then ⟨1, 16, 0⟩ else ⟨8, 0, 0⟩⟩
      (.node .black .nil 8 (.node .red .nil 16 .nil)) :=
    ⟨rfl, ⟨rfl, trivial, rfl, trivial, trivial⟩, by decide, by decide⟩
  obtain ⟨hright, hleft, -, hreplace⟩ := @rbtree_iteration _ 3 _ hrep (by decide)
  obtain ⟨s', hs', hnew, -⟩ :=
    hreplace 8 (by decide) 24 (by decide) (by decide) (fun h => absurd h (by decide))
  exact ⟨_, hright, hleft, s', hs', hnew⟩

end BiscuitOS.RbtreeIteration
