import BiscuitOS.RangeOrder
import BiscuitOS.RbtreeWalk
import BiscuitOS.VmapModel

/-!
# The tree and the list of areas

The tree holds the areas in the order of their addresses, without overlaps,
and the list has the same areas in the same order. Inserting an area that
overlaps none, erasing one and changing flags keep this.
-/

namespace BiscuitOS.VmapTree

open MachineWord ColorTree RbtreeModel RbtreeHeap RbtreeInsert RbtreeErase RbtreeWalk RangeOrder
open VmapModel

/-- Start of an area. -/
def lo (s : VmapState) (va : ℕ) : ℕ := (s.areas va).vaStart

/-- End of an area. -/
def hi (s : VmapState) (va : ℕ) : ℕ := (s.areas va).vaEnd

/-- The tree `T` of areas that are disjoint and in order, with the same list. -/
structure Areas (s : VmapState) (T : ColoredTree ℕ) : Prop where
  /-- The nodes in memory. -/
  rep : Rep s.root T
  /-- The colours. -/
  black : RedBlack T
  /-- The list. -/
  list : s.areaList = T.items
  /-- The areas are disjoint and in order. -/
  apart : Apart (lo s) (hi s) T.items
  /-- Ends are words. -/
  bound : ∀ a ∈ T.items, hi s a < 2 ^ 64

variable {s : VmapState} {va x addr : ℕ} {T : ColoredTree ℕ} {path : List (Frame ℕ)}

/-- The loops have fuel enough. -/
theorem Areas.fuel (h : Areas s T) : T.items.length + 2 = s.fuel := by
  rw [VmapState.fuel, h.list]

/-- Adding behind the last item of a part of a list without that item elsewhere. -/
theorem insertAfter_append {prev : ℕ} {xs ys : List ℕ} (h : prev ∉ xs) :
    insertAfter prev va (xs ++ prev :: ys) = xs ++ prev :: va :: ys := by
  induction xs with
  | nil => rw [List.nil_append, insertAfter, if_pos rfl, List.nil_append]
  | cons a xs ih =>
    obtain ⟨hne, hxs⟩ := List.ne_and_not_mem_of_not_mem_cons h
    rw [List.cons_append, insertAfter, if_neg (Ne.symm hne), ih hxs, List.cons_append]

/-- The items around the root of a subtree. -/
theorem items_around {c : Color} {l r : ColoredTree ℕ} {a : ℕ} (h : plug (.node c l a r) path = T) :
    T.items = before path ++ l.items ++ a :: (r.items ++ after path) := by
  rw [← h, items_plug, ColoredTree.items]
  simp only [List.append_assoc, List.cons_append]

/-- The loop down to the place of an area that overlaps none. -/
theorem walk_insert (h : Areas s T) (hdisj : ∀ a ∈ T.items, Clear (lo s) (hi s) va a)
    (hva : lo s va < hi s va) :
    ∃ path, T = plug .nil path ∧ (∀ a ∈ before path, hi s a ≤ lo s va) ∧
      (∀ b ∈ after path, hi s va ≤ lo s b) ∧
      walk s.root (visitInsert s va) (0, .root) s.root.rbNode s.fuel =
        some (above 0 path, linkOf path) := by
  let inv : ℕ × RbLink → ColoredTree ℕ → List (Frame ℕ) → Prop := fun kept _ path =>
    kept = (above 0 path, linkOf path) ∧ (∀ a ∈ before path, hi s a ≤ lo s va) ∧
      ∀ b ∈ after path, hi s va ≤ lo s b
  let done : ℕ × RbLink → Prop := fun kept => ∃ path, T = plug .nil path ∧ inv kept .nil path
  have hfuel : T.items.length < s.fuel := by
    rw [← h.fuel]
    omega
  have hstep : ∀ (kept : ℕ × RbLink) (c : Color) (l : ColoredTree ℕ) (a : ℕ) (r : ColoredTree ℕ)
      (path : List (Frame ℕ)), plug (.node c l a r) path = plug T [] → inv kept (.node c l a r) path →
      ∃ kept' next, visitInsert s va kept a = some (kept', next) ∧ (next = none → done kept') ∧
        (next = some .left → inv kept' l (⟨.left, c, a, r⟩ :: path)) ∧
        (next = some .right → inv kept' r (⟨.right, c, a, l⟩ :: path)) := by
    rintro kept c l a r path hT ⟨rfl, hb, ha⟩
    have hitems := items_around hT
    have hap := h.apart
    rw [plug] at hitems
    rw [hitems] at hap
    have hmem : a ∈ T.items := hitems ▸ List.mem_append_right _ List.mem_cons_self
    rw [visitInsert]
    by_cases hleft : (s.areas va).vaStart < (s.areas a).vaEnd
    · have hlo : hi s va ≤ lo s a := (hdisj a hmem).resolve_right (not_le.mpr hleft)
      rw [if_pos hleft]
      refine ⟨_, _, rfl, fun hn => (by cases hn), fun _ => ⟨rfl, hb, fun b hm => ?_⟩,
        fun hn => (by cases hn)⟩
      rcases List.mem_cons.mp hm with rfl | hm
      · exact hlo
      · exact hlo.trans (hap.range.le.trans (hap.after b hm))
    · have hhi : hi s a ≤ lo s va := not_lt.mp hleft
      have hgt : (s.areas a).vaStart < (s.areas va).vaEnd :=
        hap.range.trans_le (hhi.trans hva.le)
      rw [if_neg hleft, if_pos hgt]
      refine ⟨_, _, rfl, fun hn => (by cases hn), fun hn => (by cases hn),
        fun _ => ⟨rfl, fun b hm => ?_, ha⟩⟩
      rcases List.mem_append.mp hm with hm | hm
      · exact hb b hm
      · rcases List.mem_append.mp hm with hm | hm
        · exact (hap.before b (List.mem_append_right _ hm)).trans (hap.range.le.trans hhi)
        · rw [List.mem_singleton.mp hm]
          exact hhi
  obtain ⟨kept, hwalk, path, hT, rfl, hb, ha⟩ := walk_rep [] h.rep hstep
    (fun kept path hT hinv => ⟨path, hT.symm, hinv⟩)
    ⟨rfl, fun a ha => (by cases ha), fun a ha => (by cases ha)⟩ hfuel
  exact ⟨path, hT, hb, ha, by rw [h.rep.root]; exact hwalk⟩

/-- Inserting an area that overlaps none keeps the tree and the list in order. -/
theorem insertVmapArea_areas (h : Areas s T) (hdisj : ∀ a ∈ T.items, Clear (lo s) (hi s) va a)
    (hva : lo s va < hi s va) (hbound : hi s va < 2 ^ 64) (hnew : va ∉ T.items)
    (haddr : va ≠ 0 ∧ va % 4 = 0) :
    ∃ root list T', insertVmapArea s va = some { s with root := root, areaList := list } ∧
      Areas { s with root := root, areaList := list } T' ∧
      T'.items.Perm (va :: T.items) := by
  obtain ⟨path, rfl, hb, ha, hwalk⟩ := walk_insert h hdisj hva
  have hfuel := h.fuel
  obtain ⟨root, T', hlink, hrep, hblack, hold, hitems, -⟩ :=
    (rbtree_operations h.rep h.black s.fuel (by omega)).1 va path rfl haddr.1 haddr.2 hnew
  have hlen : T'.items.length < s.fuel := by
    rw [hitems, List.length_append, List.length_cons, ← hfuel, hold, List.length_append]
    omega
  have hprev := rbPrev_rep hrep hitems hlen
  have hnodup : (before path ++ after path).Nodup := hold ▸ h.rep.nodup
  have hlist : (if (before path).getLastD 0 ≠ 0 then
      insertAfter ((before path).getLastD 0) va s.areaList else va :: s.areaList) = T'.items := by
    rw [h.list, hold, hitems]
    cases hlast : (before path).getLast? with
    | none =>
      rw [List.getLast?_eq_none_iff.mp hlast]
      rfl
    | some prev =>
      obtain ⟨xs, hxs⟩ := List.getLast?_eq_some_iff.mp hlast
      have hprev0 : prev ≠ 0 := (h.rep.aligned prev (by rw [hold, hxs]; simp)).1
      rw [List.getLastD_eq_getLast?, hlast, Option.getD_some, if_pos hprev0, hxs]
      rw [hxs, List.append_assoc, List.singleton_append] at hnodup
      have hout : prev ∉ xs := fun hm =>
        (List.nodup_append.mp hnodup).2.2 prev hm prev List.mem_cons_self rfl
      simp only [List.append_assoc, List.singleton_append]
      exact insertAfter_append hout
  refine ⟨root, T'.items, T', ?_, ⟨hrep, hblack, rfl, ?_, ?_⟩, ?_⟩
  · rw [insertVmapArea, hwalk, Option.bind_some]
    dsimp only
    rw [hlink, Option.bind_some, hprev, Option.map_some, hlist]
  · rw [hitems]
    exact Apart.insert (hold ▸ h.apart) hva hb ha
  · intro a hm
    rw [hitems] at hm
    rcases List.mem_append.mp hm with hm | hm
    · exact h.bound a (hold ▸ List.mem_append_left _ hm)
    · rcases List.mem_cons.mp hm with rfl | hm
      · exact hbound
      · exact h.bound a (hold ▸ List.mem_append_right _ hm)
  · rw [hitems, hold]
    exact List.perm_middle

/-- The memory of other nodes does not matter. -/
theorem rep_store {root : RbTree} (h : Rep root T) (f : RbNode → RbNode) (ha : va ∉ T.items) :
    Rep (store root va f) T where
  root := h.root
  holds := h.holds.congr fun _ hx => store_other f fun he => ha (he ▸ hx)
  nodup := h.nodup
  aligned := h.aligned

/-- The ends of the areas, the tree and the list are all that counts. -/
theorem Areas.congr {t : VmapState} (h : Areas s T) (hroot : t.root = s.root)
    (hlist : t.areaList = s.areaList) (hlo : ∀ a ∈ T.items, lo t a = lo s a)
    (hhi : ∀ a ∈ T.items, hi t a = hi s a) : Areas t T where
  rep := hroot ▸ h.rep
  black := h.black
  list := hlist.trans h.list
  apart := h.apart.congr hlo hhi
  bound a ha := by
    rw [hhi a ha]
    exact h.bound a ha

/-- `__free_vmap_area` takes an area out of the tree and out of the list. -/
theorem freeVmapArea_areas (h : Areas s T) (hva : va ∈ T.items) :
    ∃ t T', freeVmapArea s va = some t ∧ Areas t T' ∧ T'.items = T.items.erase va ∧
      t.areas = s.areas ∧ t.lazyNr = s.lazyNr ∧ t.vmallocStart = s.vmallocStart := by
  have hfuel := h.fuel
  obtain ⟨root, T', herase, hrep, hblack, hitems, -⟩ :=
    (rbtree_operations h.rep h.black s.fuel (by omega)).2 va hva
  have hout : va ∉ T'.items := by
    rw [hitems]
    exact h.rep.nodup.not_mem_erase
  let hole := if s.vmallocStart < (s.areas va).vaEnd ∧ (s.areas va).vaEnd ≤ vmallocEnd then
    max s.pcpuHole (s.areas va).vaEnd else s.pcpuHole
  let t := { s with
    root := store root va (rbSetParent va), areaList := s.areaList.erase va, pcpuHole := hole }
  have ht : freeVmapArea s va = some t := by
    rw [freeVmapArea, herase, Option.map_some]
  refine ⟨t, T', ht, ⟨rep_store hrep _ hout, hblack, ?_, ?_, ?_⟩, hitems, rfl, rfl, rfl⟩
  · rw [hitems, ← h.list]
  · exact (hitems ▸ h.apart.sublist List.erase_sublist)
  · exact fun a ha => h.bound a (List.mem_of_mem_erase (hitems ▸ ha))

/-- Taking out several areas. -/
theorem freeVmapAreas_areas {l : List ℕ} (h : Areas s T) (hnodup : l.Nodup) (hl : ∀ a ∈ l, a ∈ T.items) :
    ∃ t T', l.foldlM freeVmapArea s = some t ∧ Areas t T' ∧ T'.items = T.items.filter (· ∉ l) ∧
      t.areas = s.areas ∧ t.lazyNr = s.lazyNr ∧ t.vmallocStart = s.vmallocStart := by
  induction l generalizing s T with
  | nil => exact ⟨s, T, rfl, h, by simp, rfl, rfl, rfl⟩
  | cons a l ih =>
    obtain ⟨ha, hnodup⟩ := List.nodup_cons.mp hnodup
    obtain ⟨t, T₁, hfree, harea, hitems, e₁, e₂, e₃⟩ :=
      freeVmapArea_areas h (hl a List.mem_cons_self)
    have hrest : ∀ b ∈ l, b ∈ T₁.items := fun b hb => by
      rw [hitems]
      have hne : b ≠ a := fun he => ha (he ▸ hb)
      exact (List.mem_erase_of_ne hne).mpr (hl b (List.mem_cons_of_mem _ hb))
    obtain ⟨u, T₂, hfold, harea₂, hitems₂, f₁, f₂, f₃⟩ := ih harea hnodup hrest
    refine ⟨u, T₂, ?_, harea₂, ?_, f₁.trans e₁, f₂.trans e₂, f₃.trans e₃⟩
    · rw [List.foldlM_cons, hfree]
      exact hfold
    · rw [hitems₂, hitems, h.rep.nodup.erase_eq_filter, List.filter_filter]
      refine List.filter_congr fun b _ => ?_
      by_cases hb : b = a <;> by_cases hl : b ∈ l <;> simp [hb, hl]

/-- Collecting areas to purge changes flags only. -/
theorem markFreeing_areas (h : Areas s T) : Areas (markFreeing s) T := by
  refine h.congr rfl rfl (fun a _ => ?_) fun a _ => ?_
  · simp only [lo, markFreeing]
    split <;> rfl
  · simp only [hi, markFreeing]
    split <;> rfl

/-- `__purge_vmap_area_lazy` without `sync` takes out all areas freed lazily, or only marks them when
the number of their pages wraps to zero. -/
theorem purgeVmapAreaLazy_areas (h : Areas s T) :
    ∃ t T', purgeVmapAreaLazy s false = some t ∧ Areas t T' ∧ t.areas = (markFreeing s).areas ∧
      t.vmallocStart = s.vmallocStart ∧
      (T'.items = T.items.filter (· ∉ lazyAreas s) ∨
        T'.items = T.items ∧
          toSigned 32 ((lazyAreas s).map fun va => areaPages (s.areas va)).sum = 0) := by
  have hmark := markFreeing_areas h
  rw [purgeVmapAreaLazy, if_neg Bool.false_ne_true]
  dsimp only
  by_cases hnr : toSigned 32 ((lazyAreas s).map fun va => areaPages (s.areas va)).sum = 0
  · rw [if_pos hnr]
    exact ⟨_, T, rfl, hmark, rfl, rfl, Or.inr ⟨rfl, hnr⟩⟩
  · rw [if_neg hnr]
    have hmem : ∀ a ∈ lazyAreas s, a ∈ T.items := fun a ha => by
      rw [← h.list]
      exact (List.mem_filter.mp ha).1
    have hnodup : (lazyAreas s).Nodup := by
      rw [lazyAreas, h.list]
      exact h.rep.nodup.filter _
    have hnr' : Areas { markFreeing s with lazyNr := toSigned 32 ((markFreeing s).lazyNr -
        toSigned 32 ((lazyAreas s).map fun va => areaPages (s.areas va)).sum) } T :=
      hmark.congr rfl rfl (fun _ _ => rfl) fun _ _ => rfl
    obtain ⟨t, T', hfold, harea, hitems, e₁, -, e₃⟩ := freeVmapAreas_areas hnr' hnodup hmem
    exact ⟨t, T', hfold, harea, e₁, e₃, Or.inl hitems⟩

/-- `free_vmap_area_noflush` changes flags and the counter only. -/
theorem freeVmapAreaNoflush_areas {t : VmapState} (h : Areas s T)
    (hfree : freeVmapAreaNoflush s va = some t) : Areas t T := by
  rw [freeVmapAreaNoflush] at hfree
  split at hfree
  · cases hfree
  · cases hfree
    refine h.congr rfl rfl (fun a _ => ?_) fun a _ => ?_
    · simp only [lo, setArea]
      by_cases ha : a = va
      · rw [ha, Function.update_self]
      · rw [Function.update_of_ne ha]
    · simp only [hi, setArea]
      by_cases ha : a = va
      · rw [ha, Function.update_self]
      · rw [Function.update_of_ne ha]

/-- `__find_vmap_area` finds the area that starts at an address. -/
theorem findVmapArea_found (h : Areas s T) (hva : va ∈ T.items) :
    findVmapArea s (lo s va) = some va := by
  let inv : ℕ → ColoredTree ℕ → List (Frame ℕ) → Prop := fun _ t _ => va ∈ t.items
  let done : ℕ → Prop := fun kept => kept = va
  have hfuel : T.items.length < s.fuel := by
    rw [← h.fuel]
    omega
  have hstep : ∀ (kept : ℕ) (c : Color) (l : ColoredTree ℕ) (a : ℕ) (r : ColoredTree ℕ)
      (path : List (Frame ℕ)), plug (.node c l a r) path = plug T [] → inv kept (.node c l a r) path →
      ∃ kept' next, visitFind s (lo s va) kept a = some (kept', next) ∧ (next = none → done kept') ∧
        (next = some .left → inv kept' l (⟨.left, c, a, r⟩ :: path)) ∧
        (next = some .right → inv kept' r (⟨.right, c, a, l⟩ :: path)) := by
    intro kept c l a r path hT hin
    have hitems := items_around hT
    have hap := h.apart
    rw [plug] at hitems
    rw [hitems] at hap
    have hmem : va ∈ l.items ++ a :: r.items := hin
    rw [visitFind]
    by_cases hleft : lo s va < (s.areas a).vaStart
    · rw [if_pos hleft]
      refine ⟨_, _, rfl, fun hn => (by cases hn), fun _ => ?_, fun hn => (by cases hn)⟩
      rcases List.mem_append.mp hmem with hm | hm
      · exact hm
      · rcases List.mem_cons.mp hm with heq | hm
        · rw [heq] at hleft
          exact absurd hleft (lt_irrefl _)
        · have hlt := hap.range.trans_le (hap.after va (List.mem_append_left _ hm))
          exact absurd hleft hlt.le.not_gt
    · rw [if_neg hleft]
      by_cases hright : (s.areas a).vaStart < lo s va
      · rw [if_pos hright]
        refine ⟨_, _, rfl, fun hn => (by cases hn), fun hn => (by cases hn), fun _ => ?_⟩
        rcases List.mem_append.mp hmem with hm | hm
        · have hlt := hap.lo_before va (List.mem_append_right _ hm)
          exact absurd hright hlt.le.not_gt
        · rcases List.mem_cons.mp hm with heq | hm
          · rw [heq] at hright
            exact absurd hright (lt_irrefl _)
          · exact hm
      · rw [if_neg hright]
        have hsame : lo s a = lo s va := le_antisymm (not_lt.mp hleft) (not_lt.mp hright)
        have ha : a ∈ T.items := hitems ▸ List.mem_append_right _ List.mem_cons_self
        refine ⟨_, _, rfl, fun _ => h.apart.lo_inj ha hva hsame, fun hn => (by cases hn),
          fun hn => (by cases hn)⟩
  obtain ⟨kept, hwalk, hkept⟩ := walk_rep [] h.rep hstep
    (fun kept path _ hnil => (List.not_mem_nil hnil).elim) hva hfuel
  rw [findVmapArea, h.rep.root]
  rw [hkept] at hwalk
  exact hwalk

end BiscuitOS.VmapTree
