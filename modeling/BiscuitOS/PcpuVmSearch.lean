import BiscuitOS.PcpuVmModel
import BiscuitOS.VmapTree

/-!
# The search for a common base

The search keeps the neighbours of the end of one area asked for, and lowers
the common base below each area in its way. It goes round the areas asked for
until all of them have been seen at one base, so it ends at the highest base
that fits or shows that there is none.
-/

namespace BiscuitOS.PcpuVmSearch

open MachineWord ColorTree RbtreeModel RbtreeHeap RbtreeWalk RangeOrder VmapModel VmapTree
open PcpuVmModel

/-- `next` is the first area that ends behind an address, and `prev` the one before it. -/
def Around (s : VmapState) (T : ColoredTree ℕ) (stop next prev : ℕ) : Prop :=
  ∃ xs ys, T.items = xs ++ ys ∧ (∀ a ∈ xs, hi s a ≤ stop) ∧ (∀ b ∈ ys, stop < hi s b) ∧
    next = ys.headD 0 ∧ prev = xs.getLastD 0

/-- The address that the search starts from. -/
def scanLimit (s : VmapState) (align : ℕ) : ℕ :=
  endBelow s align ((s.areaList.find? fun va => s.pcpuHole < (s.areas va).vaEnd).getD 0)

/-- What callers promise: ranges that are aligned, not empty and disjoint. -/
structure Legal (q : Request) : Prop where
  /-- There is an area. -/
  some : 0 < q.nrVms
  /-- The alignment is a power of two of at least a page. -/
  align : ∃ k, 12 ≤ k ∧ k < 64 ∧ q.align = 2 ^ k
  /-- Offsets are aligned. -/
  offsets : ∀ i < q.nrVms, q.align ∣ q.offsets i
  /-- Sizes are aligned, and no range is empty. -/
  sizes : ∀ i < q.nrVms, 0 < q.sizes i ∧ q.align ∣ q.sizes i
  /-- Ends are words. -/
  bound : ∀ i < q.nrVms, q.offsets i + q.sizes i < 2 ^ 64
  /-- The ranges are disjoint. -/
  apart : ∀ i < q.nrVms, ∀ j < q.nrVms, i ≠ j → Clear q.offsets q.stop i j

/-- A base where all areas asked for have room, below the address the search starts from. -/
structure Fits (s : VmapState) (q : Request) (base : ℕ) : Prop where
  /-- It is aligned. -/
  aligned : q.align ∣ base
  /-- It is not below the start. -/
  start : alignedStart s q.align ≤ base
  /-- The last area asked for ends by the address that the search starts from. -/
  limit : base + q.lastEnd ≤ scanLimit s q.align
  /-- The areas asked for overlap no area. -/
  clear : ∀ i < q.nrVms, ∀ a ∈ s.areaList,
    base + q.stop i ≤ lo s a ∨ hi s a ≤ base + q.offsets i

variable {s : VmapState} {T : ColoredTree ℕ} {q : Request} {xs ys : List ℕ} {va align stop : ℕ}
  {next prev : ℕ}

/-- The address found below an area is an aligned one that does not reach into it. -/
theorem endBelow_spec (h : Areas s T) {k : ℕ} (hk : k < 64) (hva : va ∈ T.items ∨ va = 0) :
    2 ^ k ∣ endBelow s (2 ^ k) va ∧ endBelow s (2 ^ k) va ≤ alignedEnd (2 ^ k) ∧
      (va ∈ T.items → endBelow s (2 ^ k) va ≤ lo s va) ∧
      ∀ e, 2 ^ k ∣ e → e ≤ alignedEnd (2 ^ k) → (va ∈ T.items → e ≤ lo s va) →
        e ≤ endBelow s (2 ^ k) va := by
  have hend := alignDown_spec (w := 64) (x := vmallocEnd) (by decide) hk
  rw [endBelow]
  rcases hva with hva | rfl
  · have hstart : (s.areas va).vaStart < 2 ^ 64 := (h.apart.nonempty va hva).trans (h.bound va hva)
    obtain ⟨hle, -, hd⟩ := alignDown_spec hstart hk
    rw [if_pos (h.rep.aligned va hva).1]
    refine ⟨?_, min_le_right _ _, fun _ => (min_le_left _ _).trans hle, fun e he hmax hlo => ?_⟩
    · rcases min_choice (alignDown 64 (s.areas va).vaStart (2 ^ k)) (alignedEnd (2 ^ k)) with hc | hc
      · rwa [hc]
      · rw [hc]
        exact hend.2.2
    · exact le_min (le_alignDown hstart hk he (hlo hva)) hmax
  · rw [if_neg (not_not.mpr rfl)]
    exact ⟨hend.2.2, le_rfl, fun hm => absurd rfl (h.rep.aligned 0 hm).1, fun e _ hmax _ => hmax⟩

/-- The first item of a list, or none. -/
theorem headD_mem (ys : List ℕ) : ys.headD 0 ∈ ys ∨ ys.headD 0 = 0 ∧ ys = [] := by
  cases ys with
  | nil => exact Or.inr ⟨rfl, rfl⟩
  | cons y ys => exact Or.inl List.mem_cons_self

/-- The loop for the highest offset gives one of the areas. -/
theorem lastFrom_spec (q : Request) (area last n : ℕ) :
    (q.lastFrom area last n = last ∨
      area ≤ q.lastFrom area last n ∧ q.lastFrom area last n < area + n) ∧
      q.offsets last ≤ q.offsets (q.lastFrom area last n) ∧
      ∀ i, area ≤ i → i < area + n → q.offsets i ≤ q.offsets (q.lastFrom area last n) := by
  induction n generalizing area last with
  | zero => exact ⟨Or.inl rfl, le_rfl, fun i hi hlt => by omega⟩
  | succ n ih =>
    rw [Request.lastFrom]
    obtain ⟨hmem, hle, hall⟩ := ih (area + 1) (if q.offsets last < q.offsets area then area else last)
    have hboth : q.offsets last ≤ q.offsets (if q.offsets last < q.offsets area then area else last) ∧
        q.offsets area ≤ q.offsets (if q.offsets last < q.offsets area then area else last) := by
      split <;> omega
    generalize q.lastFrom (area + 1) _ n = r at hmem hle hall ⊢
    refine ⟨?_, hboth.1.trans hle, fun i hi hlt => ?_⟩
    · rcases hmem with rfl | hmem
      · split
        · exact Or.inr ⟨le_rfl, by omega⟩
        · exact Or.inl rfl
      · exact Or.inr ⟨by omega, by omega⟩
    · rcases Nat.eq_or_lt_of_le hi with rfl | hi
      · exact hboth.2.trans hle
      · exact hall i hi (by omega)

/-- `last_area` is the area with the highest offset. -/
theorem Legal.lastArea (hq : Legal q) :
    q.lastArea < q.nrVms ∧ ∀ i < q.nrVms, q.offsets i ≤ q.offsets q.lastArea := by
  obtain ⟨hmem, -, hall⟩ := lastFrom_spec q 0 0 q.nrVms
  have hpos := hq.some
  rw [Request.lastArea]
  refine ⟨?_, fun i hi => hall i (Nat.zero_le _) (by omega)⟩
  rcases hmem with hmem | hmem
  · rw [hmem]
    exact hpos
  · omega

/-- The end of an area asked for does not wrap. -/
theorem Legal.stop_eq (hq : Legal q) {i : ℕ} (hi : i < q.nrVms) :
    q.stop i = q.offsets i + q.sizes i := wrap_of_lt (hq.bound i hi)

/-- No area asked for ends behind `last_end`. -/
theorem Legal.stop_le (hq : Legal q) {i : ℕ} (hi : i < q.nrVms) : q.stop i ≤ q.lastEnd := by
  obtain ⟨hlast, hmax⟩ := hq.lastArea
  have hle := hmax i hi
  have hstop := hq.stop_eq hi
  have hlastStop := hq.stop_eq hlast
  have hsize := (hq.sizes i hi).1
  have hlastSize := (hq.sizes _ hlast).1
  rw [Request.lastEnd]
  by_cases he : i = q.lastArea
  · rw [he]
  · rcases hq.apart i hi _ hlast he with hc | hc <;> omega

/-- The ends of the areas asked for are aligned words. -/
theorem Legal.stop_aligned (hq : Legal q) {i : ℕ} (hi : i < q.nrVms) :
    q.align ∣ q.stop i ∧ q.stop i < 2 ^ 64 ∧ q.offsets i < q.stop i := by
  have hsize := hq.sizes i hi
  have hbound := hq.bound i hi
  rw [hq.stop_eq hi]
  exact ⟨dvd_add (hq.offsets i hi) hsize.2, hbound, by omega⟩

/-- The area asked for that is `m` places before `term`, going round. -/
def back (nrVms term m : ℕ) : ℕ := if m ≤ term then term - m else term + nrVms - m

/-- It is one of the areas. -/
theorem back_lt {n term m : ℕ} (hterm : term < n) (hm : m < n) : back n term m < n := by
  rw [back]
  split <;> omega

/-- Every area is met on the way round. -/
theorem back_surj {n term i : ℕ} (hterm : term < n) (hi : i < n) : ∃ j < n, back n term j = i := by
  by_cases hle : i ≤ term
  · exact ⟨term - i, by omega, by rw [back, if_pos (by omega)]; omega⟩
  · exact ⟨term + n - i, by omega, by rw [back, if_neg (by omega)]; omega⟩

/-- The room between the end of an area asked for and `last_end`. -/
def gap (q : Request) (area : ℕ) : ℕ := q.lastEnd - q.stop area

/-- The search with `top` as the end of the last area: `m` areas before `term` are seen, and no base
fits above. -/
structure Scan (s : VmapState) (T : ColoredTree ℕ) (q : Request) (top m term next prev : ℕ) :
    Prop where
  /-- The terminal area. -/
  inRange : term < q.nrVms
  /-- There is an area left. -/
  left : m < q.nrVms
  /-- The search went down. -/
  limit : top ≤ scanLimit s q.align
  /-- The base is aligned. -/
  aligned : q.align ∣ top
  /-- No base fits above. -/
  highest : ∀ b, Fits s q b → b + q.lastEnd ≤ top
  /-- The areas seen overlap no area. -/
  seen : ∀ j < m, ∀ a ∈ T.items,
    top + q.stop (back q.nrVms term j) ≤ lo s a + q.lastEnd ∨
      hi s a + q.lastEnd ≤ top + q.offsets (back q.nrVms term j)
  /-- The area looked at ends at an address. -/
  reaches : gap q (back q.nrVms term m) ≤ top
  /-- The neighbours of that address. -/
  around : Around s T (top - gap q (back q.nrVms term m)) next prev

variable {top m term : ℕ}

/-- The address that the search starts from is not behind the end. -/
theorem scanLimit_le (h : Areas s T) {k : ℕ} (hk : k < 64) :
    scanLimit s (2 ^ k) ≤ alignedEnd (2 ^ k) ∧ 2 ^ k ∣ scanLimit s (2 ^ k) := by
  have hva : (s.areaList.find? fun va => s.pcpuHole < (s.areas va).vaEnd).getD 0 ∈ T.items ∨
      (s.areaList.find? fun va => s.pcpuHole < (s.areas va).vaEnd).getD 0 = 0 := by
    cases hfind : s.areaList.find? fun va => s.pcpuHole < (s.areas va).vaEnd with
    | none => exact Or.inr rfl
    | some va => exact Or.inl (h.list ▸ List.mem_of_find?_eq_some hfind)
  obtain ⟨hd, hle, -⟩ := endBelow_spec h hk hva
  exact ⟨hle, hd⟩

/-- An area looked at that overlaps neither neighbour overlaps no area. -/
theorem Scan.clear (hs : Scan s T q top m term next prev) (h : Areas s T) (hq : Legal q)
    (hnext : ¬ (next ≠ 0 ∧ lo s next < top - gap q (back q.nrVms term m)))
    (hprev : ¬ (prev ≠ 0 ∧ top + q.offsets (back q.nrVms term m) < hi s prev + q.lastEnd)) :
    ∀ a ∈ T.items, top + q.stop (back q.nrVms term m) ≤ lo s a + q.lastEnd ∨
      hi s a + q.lastEnd ≤ top + q.offsets (back q.nrVms term m) := by
  obtain ⟨xs, ys, hitems, -, -, rfl, rfl⟩ := hs.around
  have hreaches := hs.reaches
  have hstop := hq.stop_le (back_lt hs.inRange hs.left)
  have hap := h.apart
  rw [gap] at hnext hreaches
  intro a ha
  rw [hitems] at ha
  rcases List.mem_append.mp ha with hm | hm
  · refine Or.inr ?_
    obtain ⟨zs, z, rfl⟩ := (List.eq_nil_or_concat xs).resolve_left (List.ne_nil_of_mem hm)
    rw [List.concat_eq_append] at hitems hm hprev
    rw [List.getLastD_concat] at hprev
    rw [List.append_assoc, List.singleton_append] at hitems
    have hz : z ≠ 0 := (h.rep.aligned z (by rw [hitems]; simp)).1
    have hlast : hi s z + q.lastEnd ≤ top + q.offsets (back q.nrVms term m) :=
      not_lt.mp fun hc => hprev ⟨hz, hc⟩
    rw [hitems] at hap
    rcases List.mem_append.mp hm with hm | hm
    · have hle : hi s a ≤ hi s z := (hap.before a hm).trans hap.range.le
      omega
    · rwa [List.mem_singleton.mp hm]
  · refine Or.inl ?_
    obtain ⟨z, zs, rfl⟩ := List.exists_cons_of_ne_nil (List.ne_nil_of_mem hm)
    rw [List.headD_cons] at hnext
    have hz : z ≠ 0 := (h.rep.aligned z (by rw [hitems]; simp)).1
    have hfirst : top - (q.lastEnd - q.stop (back q.nrVms term m)) ≤ lo s z :=
      not_lt.mp fun hc => hnext ⟨hz, hc⟩
    rw [hitems] at hap
    have hle : lo s z ≤ lo s a := by
      rcases List.mem_cons.mp hm with rfl | hm
      · exact le_rfl
      · exact hap.range.le.trans (hap.after a hm)
    omega

/-- The area looked at is seen. -/
theorem Scan.seen_succ (hs : Scan s T q top m term next prev)
    (hclear : ∀ a ∈ T.items, top + q.stop (back q.nrVms term m) ≤ lo s a + q.lastEnd ∨
      hi s a + q.lastEnd ≤ top + q.offsets (back q.nrVms term m)) {j : ℕ} (hj : j < m + 1) :
    ∀ a ∈ T.items, top + q.stop (back q.nrVms term j) ≤ lo s a + q.lastEnd ∨
      hi s a + q.lastEnd ≤ top + q.offsets (back q.nrVms term j) := by
  rcases Nat.lt_succ_iff_lt_or_eq.mp hj with hlt | rfl
  · exact hs.seen j hlt
  · exact hclear

/-- All areas seen: the base fits. -/
theorem Scan.fits (hs : Scan s T q top m term next prev) (h : Areas s T) (hq : Legal q)
    (hclear : ∀ a ∈ T.items, top + q.stop (back q.nrVms term m) ≤ lo s a + q.lastEnd ∨
      hi s a + q.lastEnd ≤ top + q.offsets (back q.nrVms term m)) (hm : m + 1 = q.nrVms)
    (hstart : alignedStart s q.align + q.lastEnd ≤ top) : Fits s q (top - q.lastEnd) := by
  have hlimit := hs.limit
  refine ⟨Nat.dvd_sub hs.aligned (hq.stop_aligned hq.lastArea.1).1, by omega, by omega,
    fun i hi a ha => ?_⟩
  obtain ⟨j, hj, rfl⟩ := back_surj hs.inRange hi
  have hseen := hs.seen_succ hclear (hm ▸ hj) a (h.list ▸ ha)
  omega

end BiscuitOS.PcpuVmSearch
