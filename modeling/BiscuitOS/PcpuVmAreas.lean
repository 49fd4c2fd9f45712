import BiscuitOS.PcpuVmSearch
import BiscuitOS.VmapHistory

/-!
# Areas at a common base

The areas and descriptors of one call are inserted at the base found. The
call returns with what it promises exactly when it gives up before the search
or some base fits: without one it purges areas and does not come back.
-/

namespace BiscuitOS.PcpuVmAreas

open MachineWord ColorTree RbtreeModel RbtreeHeap RangeOrder VmapModel VmapTree VmapHistory
open PcpuVmModel PcpuVmSearch

variable {s : VmapState} {T : ColoredTree ℕ} {q : Request} {base n : ℕ} {vas vms : ℕ → ℕ}

/-- Address of an area returned. -/
def addrOf (t : VmState) (vms : ℕ → ℕ) (i : ℕ) : ℕ := (t.vms (vms i)).addr

/-- End of an area returned. -/
def endOf (t : VmState) (vms : ℕ → ℕ) (i : ℕ) : ℕ := (t.vms (vms i)).addr + (t.vms (vms i)).size

/-- What the call promises of the areas it returns. -/
structure Congruent (s : VmState) (q : Request) (vms : ℕ → ℕ) (t : VmState) : Prop where
  /-- All areas are at their offsets from one base, with their sizes. -/
  base : ∃ base, q.align ∣ base ∧ ∀ i < q.nrVms,
    (t.vms (vms i)).addr = wrap 64 (base + q.offsets i) ∧ (t.vms (vms i)).size = q.sizes i
  /-- They are inside the range for areas. -/
  inside : ∀ i < q.nrVms, s.vmap.vmallocStart ≤ addrOf t vms i ∧ endOf t vms i ≤ vmallocEnd
  /-- They do not overlap each other. -/
  apart : ∀ i < q.nrVms, ∀ j < q.nrVms, i ≠ j → Clear (addrOf t vms) (endOf t vms) i j
  /-- They overlap no area. -/
  clear : ∀ i < q.nrVms, ∀ a ∈ s.vmap.areaList,
    endOf t vms i ≤ lo s.vmap a ∨ hi s.vmap a ≤ addrOf t vms i
  /-- The tree and the list are in order. -/
  ordered : Ordered t.vmap
  /-- They are the only new areas, and all others stay where they are. -/
  areas : ∃ vas : ℕ → ℕ,
    t.vmap.areaList.Perm ((List.range q.nrVms).map vas ++ s.vmap.areaList) ∧
      (∀ i < q.nrVms, lo t.vmap (vas i) = addrOf t vms i ∧ hi t.vmap (vas i) = endOf t vms i) ∧
      ∀ a ∈ s.vmap.areaList, lo t.vmap a = lo s.vmap a ∧ hi t.vmap a = hi s.vmap a

/-- What the call promises when it returns: areas at a common base, or `NULL` with nothing changed
but areas freed lazily that are purged. -/
def Sound (s : VmState) (q : Request) (r : Option (ℕ → ℕ) × VmState) : Prop :=
  match r.1 with
  | some vms => Congruent s q vms r.2
  | none => Ordered r.2.vmap ∧ r.2.vmlist = s.vmlist ∧ r.2.vmap.areas = s.vmap.areas ∧
      r.2.vmap.areaList.Sublist s.vmap.areaList ∧
      ∀ a ∈ s.vmap.areaList, a ∉ r.2.vmap.areaList → (s.vmap.areas a).lazyFree = true

/-- What the allocator of memory promises: areas and descriptors that are not in use. -/
structure Fresh (s : VmState) (q : Request) (answers : Answers) : Prop where
  /-- The areas are new. -/
  vas : ∀ i < q.nrVms, ∀ va ∈ answers.vas i, va ≠ 0 ∧ va % 4 = 0 ∧ va ∉ s.vmap.areaList
  /-- The areas are different. -/
  vas_inj : ∀ i < q.nrVms, ∀ j < q.nrVms, ∀ va ∈ answers.vas i, va ∈ answers.vas j → i = j
  /-- The descriptors are different. -/
  vms_inj : ∀ i < q.nrVms, ∀ j < q.nrVms, ∀ vm ∈ answers.vms i, vm ∈ answers.vms j → i = j

/-- The call gives up before it searches: the areas asked for reach too far, or there is no memory. -/
def GivesUp (s : VmState) (q : Request) (answers : Answers) : Prop :=
  wrapSub 64 (alignedEnd q.align) (alignedStart s.vmap q.align) < q.lastEnd ∨
    answers.all q.nrVms = false

variable {answers : Answers} {vmap : VmapState}

/-- The start of the range rounded up. -/
theorem alignedStart_spec (hq : Legal q) (hstart : vmap.vmallocStart < 2 ^ 63) :
    vmap.vmallocStart ≤ alignedStart vmap q.align ∧
      ∀ e, q.align ∣ e → vmap.vmallocStart ≤ e → alignedStart vmap q.align ≤ e := by
  obtain ⟨k, -, hk, halign⟩ := hq.align
  have hpow : 2 ^ k ≤ 2 ^ 63 := Nat.pow_le_pow_right (by decide) (by omega)
  obtain ⟨hle, hlt, hd⟩ := alignUp_spec (x := vmap.vmallocStart) hk (by omega)
  rw [halign, alignedStart]
  refine ⟨hle, fun e he hge => ?_⟩
  by_contra hc
  have hgap : 2 ^ k ≤ alignUp 64 vmap.vmallocStart (2 ^ k) - e :=
    Nat.le_of_dvd (by omega) (Nat.dvd_sub hd he)
  omega

/-- A base that fits puts the areas inside the range. -/
theorem Fits.inside (h : Areas s T) (hq : Legal q) (hstart : s.vmallocStart < 2 ^ 63)
    (hb : Fits s q base) {i : ℕ} (hi : i < q.nrVms) :
    s.vmallocStart ≤ base + q.offsets i ∧ base + q.stop i ≤ vmallocEnd ∧
      base + q.stop i < 2 ^ 64 := by
  obtain ⟨k, -, hk, halign⟩ := hq.align
  have hlimit := (scanLimit_le h hk).1
  have hend := (alignDown_spec (w := 64) (x := vmallocEnd) (by decide) hk).1
  have hfit := hb.limit
  have hle := hq.stop_le hi
  have hfirst := hb.start
  have hlow := (alignedStart_spec hq hstart).1
  rw [halign] at hfit
  rw [alignedEnd] at hlimit
  have hbound : vmallocEnd < 2 ^ 64 := by decide
  exact ⟨by omega, by omega, by omega⟩

/-- Areas at a common base inside the range need a range that is not empty when rounded. -/
theorem Congruent.room {s t : VmState} (h : Congruent s q vms t) (hq : Legal q)
    (hstart : s.vmap.vmallocStart < 2 ^ 63) : alignedStart s.vmap q.align ≤ alignedEnd q.align := by
  obtain ⟨k, -, hk, halign⟩ := hq.align
  obtain ⟨base, hbase, hplace⟩ := h.base
  have haddr : q.align ∣ addrOf t vms 0 := by
    rw [addrOf, (hplace 0 hq.some).1, wrap]
    have hpow : q.align ∣ 2 ^ 64 := halign ▸ Nat.pow_dvd_pow 2 hk.le
    exact (Nat.dvd_mod_iff hpow).mpr (dvd_add hbase (hq.offsets 0 hq.some))
  obtain ⟨hlow, hhigh⟩ := h.inside 0 hq.some
  have hle : addrOf t vms 0 ≤ vmallocEnd := (Nat.le_add_right _ _).trans hhigh
  have hdown : addrOf t vms 0 ≤ alignedEnd q.align := by
    rw [halign] at haddr ⊢
    exact le_alignDown (by decide) hk haddr hle
  exact ((alignedStart_spec hq hstart).2 _ haddr hlow).trans hdown

/-- Two areas of a page, two pages apart. -/
def twoPages : Request := ⟨fun i => i * 8192, fun _ => 4096, 2, 4096⟩

/-- One area of a page. -/
def onePage : Request := ⟨fun _ => 0, fun _ => 4096, 1, 4096⟩

end BiscuitOS.PcpuVmAreas
