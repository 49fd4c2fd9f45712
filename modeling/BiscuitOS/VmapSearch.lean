import BiscuitOS.VmapTree

/-!
# The search for a hole

`alloc_vmap_area` goes down the tree for a first area that may be in the way,
and from there along the areas in order, moving the address behind each one
that is. As long as no rounding wraps, the address found is clear of all
areas.
-/

namespace BiscuitOS.VmapSearch

open MachineWord ColorTree RbtreeModel RbtreeHeap RbtreeWalk RangeOrder VmapModel VmapTree

/-- Rounding up from `x` does not wrap, and the area does not end at the last address. -/
def CandidateOk (size align x : ℕ) : Prop := x + align ≤ 2 ^ 64 ∧ alignUp 64 x align + size ≠ 2 ^ 64

instance (size align x : ℕ) : Decidable (CandidateOk size align x) :=
  inferInstanceAs (Decidable (_ ∧ _))

/-- No address that a search between `vstart` and `vend` may try wraps. -/
def NoWrap (s : VmapState) (size align vstart vend : ℕ) : Prop :=
  CandidateOk size align vstart ∧
    ∀ a ∈ s.areaList, vstart ≤ hi s a → lo s a < vend → CandidateOk size align (hi s a + pageSize)

instance (s : VmapState) (size align vstart vend : ℕ) : Decidable (NoWrap s size align vstart vend) :=
  inferInstanceAs (Decidable (_ ∧ _))

/-- An address is right for an area: aligned, not below `vstart`, and clear of all areas when it ends
by `vend`. -/
structure Found (s : VmapState) (T : ColoredTree ℕ) (size align vstart vend addr : ℕ) : Prop where
  /-- It is aligned. -/
  aligned : align ∣ addr
  /-- It is not below the start. -/
  start : vstart ≤ addr
  /-- The end does not wrap. -/
  bound : addr + size < 2 ^ 64
  /-- It is clear of all areas. -/
  clear : addr + size ≤ vend → ∀ a ∈ T.items, addr + size ≤ lo s a ∨ hi s a ≤ addr

variable {s : VmapState} {T : ColoredTree ℕ} {size k vstart vend addr first : ℕ} {xs ys : List ℕ}

/-- An address rounded up without an overflow. -/
theorem candidate_spec {x : ℕ} (h : CandidateOk size (2 ^ k) x) (hk : k < 64)
    (hsize : 0 < size ∧ size < 2 ^ 64)
    (hover : ¬ wrapSub 64 (alignUp 64 x (2 ^ k) + size) 1 < alignUp 64 x (2 ^ k)) :
    x ≤ alignUp 64 x (2 ^ k) ∧ 2 ^ k ∣ alignUp 64 x (2 ^ k) ∧
      alignUp 64 x (2 ^ k) + size < 2 ^ 64 := by
  obtain ⟨hle, -, hd⟩ := alignUp_spec hk h.1
  have hlt : alignUp 64 x (2 ^ k) < 2 ^ 64 := alignDown_lt _ _ _
  have hne := h.2
  generalize alignUp 64 x (2 ^ k) = a at *
  refine ⟨hle, hd, ?_⟩
  by_contra hge
  refine hover ?_
  have hover' : wrapSub 64 (a + size) 1 = a + size - 1 - 2 ^ 64 := by
    rw [wrapSub]
    omega
  omega

/-- The areas before the one looked at end before the address, or that one is in the way. -/
theorem skipAreas_found (h : Areas s T) (hk : k < 64) (hsize : 0 < size ∧ size < 2 ^ 64)
    (hno : NoWrap s size (2 ^ k) vstart vend) (hitems : T.items = xs ++ first :: ys)
    (hbefore : (∀ a ∈ xs, hi s a < addr) ∨ lo s first < addr + size)
    (hfirst : vstart ≤ hi s first) (ha : 2 ^ k ∣ addr) (hstart : vstart ≤ addr)
    (hbound : addr + size < 2 ^ 64) {fuel addr' : ℕ}
    (hskip : skipAreas s size (2 ^ k) vend addr first fuel = some addr') :
    Found s T size (2 ^ k) vstart vend addr' := by
  induction fuel generalizing addr first xs ys with
  | zero => cases hskip
  | succ fuel ih =>
    have hap := h.apart
    rw [hitems] at hap
    have hmem : first ∈ T.items := hitems ▸ List.mem_append_right _ List.mem_cons_self
    rw [skipAreas, wrap_of_lt hbound] at hskip
    by_cases hblock : (s.areas first).vaStart < addr + size ∧ addr + size ≤ vend
    · rw [if_pos hblock] at hskip
      have hok := hno.2 first (h.list ▸ hmem) hfirst (hblock.1.trans_le hblock.2)
      have hwrap : wrap 64 ((s.areas first).vaEnd + pageSize) = hi s first + pageSize := by
        refine wrap_of_lt ?_
        have := hok.1
        have hpos : 0 < 2 ^ k := by positivity
        simp only [hi] at this
        omega
      rw [hwrap] at hskip
      dsimp only at hskip
      by_cases hover : wrapSub 64 (alignUp 64 (hi s first + pageSize) (2 ^ k) + size) 1 <
          alignUp 64 (hi s first + pageSize) (2 ^ k)
      · rw [if_pos hover] at hskip
        cases hskip
      · obtain ⟨hle, hd, hlt⟩ := candidate_spec hok hk hsize hover
        have hstart' : vstart ≤ alignUp 64 (hi s first + pageSize) (2 ^ k) := by omega
        have hpage : 0 < pageSize := by decide
        have hend : hi s first < alignUp 64 (hi s first + pageSize) (2 ^ k) := by omega
        have hxs : ∀ a ∈ xs ++ [first], hi s a < alignUp 64 (hi s first + pageSize) (2 ^ k) := by
          intro a hm
          rcases List.mem_append.mp hm with hm | hm
          · exact (hap.before a hm).trans_lt (hap.range.trans hend)
          · rwa [List.mem_singleton.mp hm]
        have hfuel := h.fuel
        rw [if_neg hover, rbNext_rep h.rep hitems (by omega), Option.bind_some] at hskip
        cases ys with
        | nil =>
          rw [List.headD_nil, if_neg (not_not.mpr rfl), Option.some.injEq] at hskip
          subst hskip
          refine ⟨hd, hstart', hlt, fun _ a hm => Or.inr (hxs a ?_).le⟩
          rwa [hitems] at hm
        | cons y ys =>
          have hy : y ≠ 0 := (h.rep.aligned y (by rw [hitems]; simp)).1
          rw [List.headD_cons, if_pos hy] at hskip
          have hy' : hi s first < hi s y := hap.hi_after y List.mem_cons_self
          have hitems' : T.items = (xs ++ [first]) ++ y :: ys := by
            rw [hitems, List.append_assoc, List.singleton_append]
          exact ih hitems' (Or.inl hxs) (by omega) hd hstart' hlt hskip
    · rw [if_neg hblock, Option.some.injEq] at hskip
      subst hskip
      refine ⟨ha, hstart, hbound, fun hvend a hm => ?_⟩
      have hlo : addr + size ≤ lo s first := not_lt.mp fun hc => hblock ⟨hc, hvend⟩
      have hxs := hbefore.resolve_right (not_lt.mpr hlo)
      rw [hitems] at hm
      rcases List.mem_append.mp hm with hm | hm
      · exact Or.inr (hxs a hm).le
      · rcases List.mem_cons.mp hm with rfl | hm
        · exact Or.inl hlo
        · exact Or.inl (hlo.trans (hap.range.le.trans (hap.after a hm)))

/-- What the loop down the tree keeps: the last area that ends before the address, or else the
first area met that may be in the way. -/
def FirstKept (s : VmapState) (addr size first : ℕ) (path : List (Frame ℕ)) : Prop :=
  (∀ a ∈ before path, hi s a < addr) ∧ (∀ b ∈ after path, addr ≤ hi s b) ∧
    (before path ≠ [] → first = (before path).getLastD 0) ∧
    (before path = [] → (first = 0 ∧ ∀ b ∈ after path, addr + size ≤ lo s b) ∨
      first ∈ after path ∧ lo s first < addr + size)

/-- The loop down the tree of `alloc_vmap_area`. -/
theorem walk_first (h : Areas s T) (hbound : addr + size < 2 ^ 64) :
    ∃ first path, walk s.root (visitFirst s addr size) 0 s.root.rbNode s.fuel = some first ∧
      T.items = before path ++ after path ∧ FirstKept s addr size first path := by
  let inv : ℕ → ColoredTree ℕ → List (Frame ℕ) → Prop := fun first _ path =>
    FirstKept s addr size first path
  let done : ℕ → Prop := fun first => ∃ path,
    plug .nil path = plug T [] ∧ FirstKept s addr size first path
  have hfuel : T.items.length < s.fuel := by
    rw [← h.fuel]
    omega
  have hstep : ∀ (kept : ℕ) (c : Color) (l : ColoredTree ℕ) (a : ℕ) (r : ColoredTree ℕ)
      (path : List (Frame ℕ)), plug (.node c l a r) path = plug T [] → inv kept (.node c l a r) path →
      ∃ kept' next, visitFirst s addr size kept a = some (kept', next) ∧ (next = none → done kept') ∧
        (next = some .left → inv kept' l (⟨.left, c, a, r⟩ :: path)) ∧
        (next = some .right → inv kept' r (⟨.right, c, a, l⟩ :: path)) := by
    rintro kept c l a r path hT ⟨hb, ha, hlast, hnone⟩
    have hitems := items_around hT
    have hap := h.apart
    rw [plug] at hitems
    rw [hitems] at hap
    have ha0 : a ≠ 0 := (h.rep.aligned a (by rw [hitems]; simp)).1
    rw [visitFirst, wrap_of_lt hbound]
    by_cases hleft : addr ≤ (s.areas a).vaEnd
    · rw [if_pos hleft]
      refine ⟨_, _, rfl, fun hn => (by cases hn), fun _ => ⟨hb, fun b hm => ?_, fun hne => ?_,
        fun he => ?_⟩, fun hn => (by cases hn)⟩
      · rcases List.mem_cons.mp hm with rfl | hm
        · exact hleft
        · exact hleft.trans (hap.hi_after b hm).le
      · have hne : before path ≠ [] := hne
        have hk := hlast hne
        have hk0 : kept ≠ 0 := by
          have hm : kept ∈ before path := by
            rw [hk, List.getLastD_eq_getLast?, List.getLast?_eq_some_getLast hne, Option.getD_some]
            exact List.getLast_mem hne
          exact (h.rep.aligned kept (by rw [hitems]; simp [hm])).1
        rw [if_neg fun hc => hk0 hc.1]
        exact hk
      · rcases hnone he with ⟨rfl, hall⟩ | ⟨hm, hlo⟩
        · by_cases hlo : (s.areas a).vaStart < addr + size
          · rw [if_pos ⟨rfl, hlo⟩]
            exact Or.inr ⟨List.mem_cons_self, hlo⟩
          · rw [if_neg fun hc => hlo hc.2]
            refine Or.inl ⟨rfl, fun b hm => ?_⟩
            rcases List.mem_cons.mp hm with rfl | hm
            · exact not_lt.mp hlo
            · exact (not_lt.mp hlo).trans (hap.range.le.trans (hap.after b hm))
        · have hk0 : kept ≠ 0 := (h.rep.aligned kept (by rw [hitems]; simp [hm])).1
          rw [if_neg fun hc => hk0 hc.1]
          exact Or.inr ⟨List.mem_cons_of_mem _ (List.mem_append_right _ hm), hlo⟩
    · rw [if_neg hleft]
      refine ⟨_, _, rfl, fun hn => (by cases hn), fun hn => (by cases hn), fun _ => ⟨fun b hm => ?_, ha,
        fun _ => ?_, fun he => absurd he (by simp [before])⟩⟩
      · have hlt : hi s a < addr := not_le.mp hleft
        rcases List.mem_append.mp hm with hm | hm
        · exact hb b hm
        · rcases List.mem_append.mp hm with hm | hm
          · exact (hap.before b (List.mem_append_right _ hm)).trans_lt (hap.range.trans hlt)
          · rwa [List.mem_singleton.mp hm]
      · rw [before, ← List.append_assoc, List.getLastD_concat]
  have hinit : inv 0 T [] := ⟨fun a ha => (by cases ha), fun a ha => (by cases ha),
    fun hc => absurd rfl hc, fun _ => Or.inl ⟨rfl, fun a ha => (by cases ha)⟩⟩
  obtain ⟨first, hwalk, path, hT, hkept⟩ := walk_rep [] h.rep hstep
    (fun kept path hT hinv => ⟨path, hT, hinv⟩) hinit hfuel
  refine ⟨first, path, by rw [h.rep.root]; exact hwalk, ?_, hkept⟩
  rw [plug] at hT
  rw [← hT, items_plug, ColoredTree.items, List.nil_append]

/-- The address found by `alloc_vmap_area` is right. -/
theorem searchHole_found (h : Areas s T) (hk : k < 64) (hsize : 0 < size ∧ size < 2 ^ 64)
    (hno : NoWrap s size (2 ^ k) vstart vend)
    (hfound : searchHole s size (2 ^ k) vstart vend = some addr) :
    Found s T size (2 ^ k) vstart vend addr := by
  rw [searchHole] at hfound
  by_cases hover : wrapSub 64 (alignUp 64 vstart (2 ^ k) + size) 1 < alignUp 64 vstart (2 ^ k)
  · rw [if_pos hover] at hfound
    cases hfound
  · obtain ⟨hstart, hd, hbound⟩ := candidate_spec hno.1 hk hsize hover
    rw [if_neg hover] at hfound
    by_cases hroot : s.root.rbNode = 0
    · rw [if_pos hroot, Option.some.injEq] at hfound
      subst hfound
      rw [h.rep.root] at hroot
      have hnil := items_of_top (fun a ha => (h.rep.aligned a ha).1) hroot
      exact ⟨hd, hstart, hbound, fun _ a ha => by rw [hnil] at ha; cases ha⟩
    · obtain ⟨first, path, hwalk, hitems, hb, ha, hlast, hnone⟩ := walk_first h hbound
      have hfuel := h.fuel
      have hap := h.apart
      rw [if_neg hroot, hwalk, Option.bind_some] at hfound
      cases hbefore : (before path).getLast? with
      | none =>
        have hnil := List.getLast?_eq_none_iff.mp hbefore
        rw [hnil, List.nil_append] at hitems
        rcases hnone hnil with ⟨rfl, hclear⟩ | ⟨hm, hlo⟩
        · rw [if_pos rfl, Option.some.injEq] at hfound
          subst hfound
          exact ⟨hd, hstart, hbound, fun _ a ha => Or.inl (hclear a (hitems ▸ ha))⟩
        · have h0 : first ≠ 0 := (h.rep.aligned first (hitems ▸ hm)).1
          have hend : ¬ (s.areas first).vaEnd < alignUp 64 vstart (2 ^ k) := not_lt.mpr (ha first hm)
          rw [if_neg h0, if_neg hend] at hfound
          obtain ⟨xs, ys, hsplit⟩ := List.append_of_mem hm
          exact skipAreas_found h hk hsize hno (hitems.trans hsplit) (Or.inr hlo)
            (hstart.trans (ha first hm)) hd hstart hbound hfound
      | some prev =>
        obtain ⟨xs, hxs⟩ := List.getLast?_eq_some_iff.mp hbefore
        have hne : before path ≠ [] := by
          rw [hxs]
          simp
        have hprev : first = prev := by
          rw [hlast hne, List.getLastD_eq_getLast?, hbefore, Option.getD_some]
        subst hprev
        have hitems' : T.items = xs ++ first :: after path := by
          rw [hitems, hxs, List.append_assoc, List.singleton_append]
        have h0 : first ≠ 0 := (h.rep.aligned first (by rw [hitems']; simp)).1
        have hend : (s.areas first).vaEnd < alignUp 64 vstart (2 ^ k) := hb first (by rw [hxs]; simp)
        rw [if_neg h0, if_pos hend, rbNext_rep h.rep hitems' (by omega), Option.bind_some] at hfound
        cases hafter : after path with
        | nil =>
          rw [hafter, List.headD_nil, if_neg (not_not.mpr rfl), Option.some.injEq] at hfound
          subst hfound
          refine ⟨hd, hstart, hbound, fun _ a hm => Or.inr (hb a ?_).le⟩
          rwa [hitems, hafter, List.append_nil] at hm
        | cons y ys =>
          have hitems₂ : T.items = before path ++ y :: ys := by rw [hitems, hafter]
          have hy0 : y ≠ 0 := (h.rep.aligned y (by rw [hitems₂]; simp)).1
          rw [hafter, List.headD_cons, if_pos hy0] at hfound
          have hy : alignUp 64 vstart (2 ^ k) ≤ hi s y := ha y (by rw [hafter]; simp)
          exact skipAreas_found h hk hsize hno hitems₂ (Or.inl hb) (hstart.trans hy) hd hstart hbound
            hfound

end BiscuitOS.VmapSearch
