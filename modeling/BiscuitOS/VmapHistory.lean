import BiscuitOS.TransitionRun
import BiscuitOS.VmapSearch

/-!
# Runs of the allocator of areas

Areas are allocated, freed lazily and purged in any order, from any tree of
disjoint areas. As long as no search rounds an address past the last one, the
tree and the list stay in order, an area returned is clear of all others, and
only areas that were freed leave the tree.
-/

namespace BiscuitOS.VmapHistory

open MachineWord TransitionRun ColorTree RbtreeModel RbtreeHeap RangeOrder VmapModel VmapTree
open VmapSearch

/-- What callers of the allocator do. -/
inductive VmapOp
  /-- `alloc_vmap_area`, with the answer of the allocator of areas. -/
  | alloc (size align vstart vend : ℕ) (answer : Option ℕ)
  /-- `free_vmap_area_noflush`. -/
  | free (va : ℕ)
  /-- `__purge_vmap_area_lazy`. -/
  | purge (sync : Bool)

/-- Perform an operation. -/
def perform (s : VmapState) : VmapOp → Option VmapState
  | .alloc size align vstart vend answer =>
    (allocVmapArea s size align vstart vend answer).map fun r => r.2
  | .free va => freeVmapAreaNoflush s va
  | .purge sync => purgeVmapAreaLazy s sync

/-- What callers promise: sizes of whole pages, alignments that are powers of two, and areas of the
tree; what the allocator of areas promises: a node that is not in the tree. -/
def Legal (s : VmapState) : VmapOp → Prop
  | .alloc size align _ _ answer =>
    0 < size ∧ size < 2 ^ 64 ∧ pageSize ∣ size ∧ (∃ k < 64, align = 2 ^ k) ∧
      ∀ va ∈ answer, va ≠ 0 ∧ va % 4 = 0 ∧ va ∉ s.areaList
  | .free va => va ∈ s.areaList
  | .purge _ => True

instance (s : VmapState) : ∀ op, Decidable (Legal s op)
  | .alloc _ _ _ _ _ => inferInstanceAs (Decidable (_ ∧ _))
  | .free _ => inferInstanceAs (Decidable (_ ∈ _))
  | .purge _ => isTrue trivial

/-- No allocation tries an address that wraps. -/
def Unwrapped (s : VmapState) : VmapOp → Prop
  | .alloc size align vstart vend _ => NoWrap s size align vstart vend
  | .free _ => True
  | .purge _ => True

instance (s : VmapState) : ∀ op, Decidable (Unwrapped s op)
  | .alloc _ _ _ _ _ => inferInstanceAs (Decidable (NoWrap ..))
  | .free _ => isTrue trivial
  | .purge _ => isTrue trivial

/-- The tree is a red-black tree of disjoint areas in order, and the list has the same areas in the
same order. -/
def Ordered (s : VmapState) : Prop := ∃ T, Areas s T

/-- What an operation does to the areas: one returned is right and new, and only areas freed lazily
leave. -/
def StepSound (s : VmapState) (op : VmapOp) (t : VmapState) : Prop :=
  match op with
  | .alloc size align vstart vend answer =>
    ∀ va, allocVmapArea s size align vstart vend answer = some (some va, t) →
      hi t va = lo t va + size ∧ align ∣ lo t va ∧ vstart ≤ lo t va ∧ hi t va ≤ vend ∧
        (∀ a ∈ s.areaList, Clear (lo t) (hi t) va a) ∧ t.areaList.Perm (va :: s.areaList) ∧
        ∀ a ∈ s.areaList, t.areas a = s.areas a
  | .free _ => t.areaList = s.areaList
  | .purge _ =>
    t.areaList.Sublist s.areaList ∧ ∀ a ∈ s.areaList, a ∉ t.areaList → (s.areas a).lazyFree = true

variable {s t : VmapState} {T : ColoredTree ℕ} {size align vstart vend va : ℕ} {answer : Option ℕ}

/-- An area stored that is not in the tree. -/
theorem setArea_areas (h : Areas s T) (hva : va ∉ T.items) (area : VmapArea) :
    Areas (setArea s va area) T := by
  have hsame : ∀ a ∈ T.items, (setArea s va area).areas a = s.areas a := fun a ha => by
    have hne : a ≠ va := fun he => hva (he ▸ ha)
    exact Function.update_of_ne hne _ _
  exact h.congr rfl rfl (fun a ha => by rw [lo, hsame a ha, lo]) fun a ha => by rw [hi, hsame a ha, hi]

/-- An area is inserted at an address found that leaves room before the end. -/
theorem allocVmapArea_placed (h : Areas s T)
    (hlegal : Legal s (.alloc size align vstart vend (some va)))
    (hno : NoWrap s size align vstart vend) {addr : ℕ}
    (hfound : searchHole s size align vstart vend = some addr) (hend : addr + size ≤ vend) :
    ∃ t T', allocVmapArea s size align vstart vend (some va) = some (some va, t) ∧ Areas t T' ∧
      t.areas = Function.update s.areas va (placedArea (s.areas va) addr (addr + size)) ∧
      T'.items.Perm (va :: T.items) ∧ t.lazyNr = s.lazyNr ∧ t.vmallocStart = s.vmallocStart := by
  obtain ⟨hpos, hlt, -, ⟨k, hk, rfl⟩, hanswer⟩ := hlegal
  obtain ⟨hva0, hva4, hnew⟩ := hanswer va rfl
  rw [h.list] at hnew
  have hf := searchHole_found h hk ⟨hpos, hlt⟩ hno hfound
  have halloc : allocVmapArea s size (2 ^ k) vstart vend (some va) =
      (insertVmapArea (setArea s va (placedArea (s.areas va) addr (addr + size))) va).map
        fun s => (some va, s) := by
    simp only [allocVmapArea, hfound, Option.bind_some, wrap_of_lt hf.bound, if_neg hend.not_gt]
  rw [halloc]
  generalize harea : placedArea (s.areas va) addr (addr + size) = area
  have hset := setArea_areas h hnew area
  have hself : (setArea s va area).areas va = area := Function.update_self _ _ _
  have hlo : lo (setArea s va area) va = addr := by rw [lo, hself, ← harea, placedArea]
  have hhi : hi (setArea s va area) va = addr + size := by rw [hi, hself, ← harea, placedArea]
  have hother : ∀ a ∈ T.items, (setArea s va area).areas a = s.areas a := fun a ha => by
    have hne : a ≠ va := fun he => hnew (he ▸ ha)
    exact Function.update_of_ne hne _ _
  have hclear : ∀ a ∈ T.items, Clear (lo (setArea s va area)) (hi (setArea s va area)) va a := by
    intro a ha
    rw [Clear, hlo, hhi, lo, hi, hother a ha]
    exact hf.clear hend a ha
  obtain ⟨root, list, T', hinsert, hareas, hperm⟩ := insertVmapArea_areas hset hclear
    (by omega) (by rw [hhi]; exact hf.bound) hnew ⟨hva0, hva4⟩
  rw [hinsert, Option.map_some]
  exact ⟨_, T', rfl, hareas, rfl, hperm, rfl, rfl⟩

/-- An allocation that returns inserts an area at the address found, or has no memory for one. -/
theorem allocVmapArea_areas (h : Areas s T)
    (hlegal : Legal s (.alloc size align vstart vend answer))
    (hno : NoWrap s size align vstart vend) {r : Option ℕ × VmapState}
    (halloc : allocVmapArea s size align vstart vend answer = some r) :
    (answer = none ∧ r = (none, s)) ∨
      ∃ va addr T', answer = some va ∧ r.1 = some va ∧ Areas r.2 T' ∧
        Found s T size align vstart vend addr ∧ addr + size ≤ vend ∧
        r.2.areas = Function.update s.areas va (placedArea (s.areas va) addr (addr + size)) ∧
        T'.items.Perm (va :: T.items) ∧ r.2.lazyNr = s.lazyNr ∧
        r.2.vmallocStart = s.vmallocStart := by
  cases answer with
  | none => exact Or.inl ⟨rfl, (Option.some.inj halloc).symm⟩
  | some va =>
    obtain ⟨hpos, hlt, -, ⟨k, hk, halign⟩, -⟩ := id hlegal
    have hsearch := halloc
    simp only [allocVmapArea, Option.bind_eq_some_iff] at hsearch
    obtain ⟨addr, hfound, hsearch⟩ := hsearch
    have hf : Found s T size align vstart vend addr := by
      rw [halign] at hno hfound ⊢
      exact searchHole_found h hk ⟨hpos, hlt⟩ hno hfound
    rw [wrap_of_lt hf.bound] at hsearch
    by_cases hend : vend < addr + size
    · rw [if_pos hend] at hsearch
      cases hsearch
    · obtain ⟨t, T', hplaced, hareas, hupdate, hperm, hlazy, hstart⟩ :=
        allocVmapArea_placed h hlegal hno hfound (not_lt.mp hend)
      rw [hplaced, Option.some.injEq] at halloc
      subst halloc
      exact Or.inr ⟨va, addr, T', rfl, rfl, hareas, hf, not_lt.mp hend, hupdate, hperm, hlazy,
        hstart⟩

/-- One operation keeps the order and does to the areas what it should. -/
theorem perform_step {op : VmapOp} (h : Ordered s) (hok : Legal s op ∧ Unwrapped s op)
    (hstep : perform s op = some t) : Ordered t ∧ StepSound s op t := by
  obtain ⟨T, hT⟩ := h
  cases op with
  | alloc size align vstart vend answer =>
    rw [perform, Option.map_eq_some_iff] at hstep
    obtain ⟨r, halloc, rfl⟩ := hstep
    rcases allocVmapArea_areas hT hok.1 hok.2 halloc with ⟨-, rfl⟩ |
      ⟨va, addr, T', hanswer, hr, hareas, hf, hend, hupdate, hperm, -, -⟩
    · refine ⟨⟨T, hT⟩, fun va hva => ?_⟩
      rw [halloc] at hva
      cases hva
    · refine ⟨⟨T', hareas⟩, fun va' hva' => ?_⟩
      have hva : va' = va := by
        rw [halloc, Option.some.injEq] at hva'
        have := congrArg Prod.fst hva'
        rw [hr] at this
        exact (Option.some.inj this).symm
      subst hva
      have hself : r.2.areas va' = placedArea (s.areas va') addr (addr + size) := by
        rw [hupdate, Function.update_self]
      have hlo : lo r.2 va' = addr := by rw [lo, hself, placedArea]
      have hhi : hi r.2 va' = addr + size := by rw [hi, hself, placedArea]
      have hnew : va' ∉ T.items := hT.list ▸ (hok.1.2.2.2.2 va' hanswer).2.2
      have hother : ∀ a ∈ T.items, r.2.areas a = s.areas a := fun a ha => by
        have hne : a ≠ va' := fun he => hnew (he ▸ ha)
        rw [hupdate, Function.update_of_ne hne]
      rw [hlo, hhi, hareas.list, hT.list]
      refine ⟨rfl, hf.aligned, hf.start, hend, fun a ha => ?_, hperm, hother⟩
      rw [Clear, hlo, hhi, lo, hi, hother a ha]
      exact hf.clear hend a ha
  | free va => exact ⟨⟨T, freeVmapAreaNoflush_areas hT hstep⟩, by
      rw [perform, freeVmapAreaNoflush] at hstep
      split at hstep
      · cases hstep
      · cases hstep
        rfl⟩
  | purge sync =>
    cases sync with
    | true => cases hstep
    | false =>
      obtain ⟨t', T', hpurge, hareas, -, -, hitems⟩ := purgeVmapAreaLazy_areas hT
      rw [perform, hpurge, Option.some.injEq] at hstep
      subst hstep
      refine ⟨⟨T', hareas⟩, ?_⟩
      rw [StepSound, hareas.list, hT.list]
      rcases hitems with hitems | ⟨hitems, -⟩
      · rw [hitems]
        refine ⟨List.filter_sublist, fun a ha hout => ?_⟩
        have hlazy : a ∈ lazyAreas s := by
          by_contra hc
          exact hout (List.mem_filter.mpr ⟨ha, decide_eq_true hc⟩)
        exact (List.mem_filter.mp hlazy).2
      · rw [hitems]
        exact ⟨List.Sublist.refl _, fun a ha hout => absurd ha hout⟩

/-- In every run from a tree of disjoint areas whose allocations try no address that wraps, each
state reached has the tree and the list in order, and each operation does what it should. -/
theorem history_ordered (s : VmapState) (ops : List VmapOp) (hs : Ordered s)
    (hrun : Admissible perform (fun s op => Legal s op ∧ Unwrapped s op) s ops)
    (done rest : List VmapOp) (op : VmapOp) (hops : ops = done ++ op :: rest) {t u : VmapState}
    (ht : exec perform s done = some t) (hu : perform t op = some u) :
    Ordered t ∧ Ordered u ∧ StepSound t op u := by
  rw [hops] at hrun
  have hinv := @exec_preserves _ _ _ _ Ordered
    (fun s op t hs hok hstep => (perform_step hs hok hstep).1) _ _ _ hs hrun.prefix ht
  have hok := (hrun.suffix ht).1
  exact ⟨hinv, perform_step hinv hok hu⟩

/-- The allocator without areas. -/
def noAreas : VmapState :=
  ⟨rbRoot fun _ => ⟨0, 0, 0⟩, fun _ => ⟨0, 0, false, false, false, 0⟩, [], 0, vmallocEnd, 0xD0800000⟩

/-- The allocator without areas is in order. -/
theorem noAreas_ordered : Ordered noAreas :=
  ⟨.nil, ⟨rfl, trivial, List.nodup_nil, fun a ha => (by cases ha)⟩, ⟨0, .nil⟩, rfl,
    ⟨fun a ha => (by cases ha), List.Pairwise.nil⟩, fun a ha => (by cases ha)⟩

/-- Two areas of two pages, the first of which is freed. -/
def twoAreas : List VmapOp :=
  [.alloc 8192 4096 0xD0800000 vmallocEnd (some 8), .alloc 8192 8192 0xD0800000 vmallocEnd (some 16),
    .free 8]

/-- The purge after them takes the first one out. -/
theorem history_ordered_twoAreas :
    ∃ t u, exec perform noAreas twoAreas = some t ∧ perform t (.purge false) = some u ∧
      t.areaList = [8, 16] ∧ u.areaList = [16] ∧ Ordered u := by
  have hrun : Admissible perform (fun s op => Legal s op ∧ Unwrapped s op) noAreas
      (twoAreas ++ [.purge false]) := by
    decide +kernel
  have hlists : ((exec perform noAreas twoAreas).bind fun t =>
      (perform t (.purge false)).map fun u => (t.areaList, u.areaList)) = some ([8, 16], [16]) := by
    decide +kernel
  simp only [Option.bind_eq_some_iff, Option.map_eq_some_iff, Prod.mk.injEq] at hlists
  obtain ⟨t, ht, u, hu, htl, hul⟩ := hlists
  exact ⟨t, u, ht, hu, htl, hul, (history_ordered noAreas _ noAreas_ordered hrun twoAreas [] _ rfl
    ht hu).2.1⟩

/-- An allocation whose start rounds up past the last address gets address zero. -/
def roundedPast : VmapOp := .alloc 4096 8192 (2 ^ 64 - 4096) (2 ^ 64 - 1) (some 8)

/-- The area returned starts below the start asked for. -/
theorem roundedPast_counterexample :
    Legal noAreas roundedPast ∧ ∃ u, perform noAreas roundedPast = some u ∧
      allocVmapArea noAreas 4096 8192 (2 ^ 64 - 4096) (2 ^ 64 - 1) (some 8) = some (some 8, u) ∧
      lo u 8 = 0 ∧ ¬ StepSound noAreas roundedPast u := by
  have hrun : ((allocVmapArea noAreas 4096 8192 (2 ^ 64 - 4096) (2 ^ 64 - 1) (some 8)).map fun r =>
      (r.1, lo r.2 8)) = some (some 8, 0) := by
    decide +kernel
  simp only [Option.map_eq_some_iff, Prod.mk.injEq] at hrun
  obtain ⟨⟨va, u⟩, halloc, rfl, hlo⟩ := hrun
  have hperform : perform noAreas roundedPast = some u := by
    rw [roundedPast, perform, halloc, Option.map_some]
  refine ⟨by decide +kernel, u, hperform, halloc, hlo, fun h => ?_⟩
  have hstart : 2 ^ 64 - 4096 ≤ lo u 8 := (h 8 halloc).2.2.1
  rw [hlo] at hstart
  exact absurd hstart (by decide)

end BiscuitOS.VmapHistory
