import BiscuitOS.TransitionRun
import BiscuitOS.MachineWord

/-!
# Atomic kernel mappings

`__kmap_atomic` and `__kunmap_atomic` of `mm/highmem.c` for high-memory pages,
with `CONFIG_DEBUG_HIGHMEM` and a cache that is not VIVT, so that an address
of `kmap_high` is never used again. The macros of `linux/percpu.h` add one
whatever their argument is, so unmapping raises the index as mapping does.
-/

namespace BiscuitOS.AtomicKmaps

open MachineWord TransitionRun

/-- `KM_TYPE_NR`. -/
def kmTypeNr : ℕ := 16

/-- `FIXADDR_START`. -/
def fixaddrStart : ℕ := 0xfff00000

/-- `FIX_KMAP_BEGIN`. -/
def fixKmapBegin : ℕ := 0

/-- `smp_processor_id`. -/
def smpProcessorId : ℕ := 0

/-- `__fix_to_virt` of an `unsigned int`. -/
def fixToVirt (x : ℕ) : ℕ := fixaddrStart + wrap 32 (x <<< 12)

/-- `pte_index`. -/
def pteIndex (x : ℕ) : ℕ := x >>> 12 % 512

/-- The index of the processor and the table of ptes that `top_pmd` refers to. -/
structure AtomicState where
  /-- `__kmap_atomic_idx`. -/
  kmapAtomicIdx : ℤ
  /-- The ptes, by `pte_index`. -/
  topPte : ℕ → ℕ

/-- `this_cpu_add_return`, which does not use its value. -/
def thisCpuAddReturn (pcp _val : ℤ) : ℤ := toSigned 32 (pcp + 1)

/-- `__this_cpu_inc_return`. -/
def thisCpuIncReturn (pcp : ℤ) : ℤ := thisCpuAddReturn pcp 1

/-- `__this_cpu_dec_return`. -/
def thisCpuDecReturn (pcp : ℤ) : ℤ := thisCpuAddReturn pcp (-1)

/-- `kmap_atomic_idx_push`: the index and the state. -/
def kmapAtomicIdxPush (s : AtomicState) : ℤ × AtomicState :=
  let idx := thisCpuIncReturn s.kmapAtomicIdx
  (idx - 1, { s with kmapAtomicIdx := idx })

/-- `kmap_atomic_idx_pop`; its check only reports. -/
def kmapAtomicIdxPop (s : AtomicState) : AtomicState :=
  { s with kmapAtomicIdx := thisCpuDecReturn s.kmapAtomicIdx }

/-- `set_pte_ext` through `TOP_PTE`. -/
def setTopPte (s : AtomicState) (vaddr pte : ℕ) : AtomicState :=
  { s with topPte := Function.update s.topPte (pteIndex vaddr) pte }

/-- `__kmap_atomic` of a high-memory page whose `mk_pte` is `pte`: the address and the state. -/
def kmapAtomic (s : AtomicState) (pte : ℕ) : ℕ × AtomicState :=
  let pushed := kmapAtomicIdxPush s
  let idx := wrap 32 (toUnsigned 32 pushed.1 + kmTypeNr * 1)
  let vaddr := fixToVirt (wrap 32 (fixKmapBegin + idx))
  (vaddr, setTopPte pushed.2 vaddr pte)

/-- `__kunmap_atomic` of an address of the fixmap. -/
def kunmapAtomic (s : AtomicState) (kvaddr : ℕ) : AtomicState :=
  let vaddr := wrap 32 (kvaddr / 4096 * 4096)
  kmapAtomicIdxPop (setTopPte s vaddr 0)

/-- A mapping that was not given back. -/
structure Mapping where
  /-- The address that was returned. -/
  address : ℕ
  /-- The pte that was set. -/
  pte : ℕ

/-- The state and the mappings, the last one first. -/
structure AtomicWorld where
  /-- The state. -/
  state : AtomicState
  /-- The mappings. -/
  live : List Mapping

/-- What users do: map a page, of which `mk_pte` makes a pte, or unmap the last mapping. -/
inductive AtomicOp
  /-- `kmap_atomic`. -/
  | kmap (pte : ℕ)
  /-- `kunmap_atomic` of the last address. -/
  | kunmap
  deriving DecidableEq

/-- Perform an operation. -/
def perform (w : AtomicWorld) : AtomicOp → Option AtomicWorld
  | .kmap pte =>
    let mapped := kmapAtomic w.state pte
    some ⟨mapped.2, ⟨mapped.1, pte⟩ :: w.live⟩
  | .kunmap =>
    w.live.head?.map fun last => ⟨kunmapAtomic w.state last.address, w.live.tail⟩

/-- The nesting is at most `KM_TYPE_NR` deep, and only mappings are unmapped. -/
def Legal (w : AtomicWorld) : AtomicOp → Prop
  | .kmap _ => w.live.length < kmTypeNr
  | .kunmap => w.live ≠ []

/-- Promises of users are decided. -/
instance decidableLegal (w : AtomicWorld) : (op : AtomicOp) → Decidable (Legal w op)
  | .kmap _ => inferInstanceAs (Decidable (w.live.length < kmTypeNr))
  | .kunmap => decidable_of_iff (0 < w.live.length) List.length_pos_iff

/-- No page is mapped. -/
def initWorld : AtomicWorld := ⟨⟨0, fun _ => 0⟩, []⟩

/-- The slots of a processor in the fixmap. -/
def Window (cpu address : ℕ) : Prop :=
  ∃ type, type < kmTypeNr ∧ address = fixToVirt (fixKmapBegin + (type + kmTypeNr * cpu))

/-- The mappings nest in the window of a processor. -/
structure Nests (cpu : ℕ) (w : AtomicWorld) : Prop where
  /-- The index is the depth. -/
  depth : w.state.kmapAtomicIdx = w.live.length
  /-- The slots are different. -/
  distinct : (w.live.map Mapping.address).Nodup
  /-- They lie in the window. -/
  window : ∀ m ∈ w.live, Window cpu m.address

/-- The nesting holds in every state of a run. -/
def NestsAlong (cpu : ℕ) (ops : List AtomicOp) : Prop :=
  ∀ before after, ops = before ++ after →
    ∃ w, exec perform initWorld before = some w ∧ Nests cpu w

variable {w t : AtomicWorld} {ops : List AtomicOp} {n : ℕ}

/-- Every operation raises the index by one. -/
theorem perform_idx {op : AtomicOp} (h : perform w op = some t) :
    t.state.kmapAtomicIdx = toSigned 32 (w.state.kmapAtomicIdx + 1) := by
  cases op with
  | kmap pte =>
    rw [perform, Option.some.injEq] at h
    rw [← h]
    rfl
  | kunmap =>
    rw [perform, Option.map_eq_some_iff] at h
    obtain ⟨last, -, rfl⟩ := h
    rfl

/-- Slots have different addresses. -/
theorem fixToVirt_inj {i j : ℕ} (hi : i < 2 ^ 20) (hj : j < 2 ^ 20)
    (h : fixToVirt i = fixToVirt j) : i = j := by
  rw [fixToVirt, fixToVirt, Nat.shiftLeft_eq, Nat.shiftLeft_eq, wrap_of_lt (by omega),
    wrap_of_lt (by omega)] at h
  omega

/-- `kmap_atomic` with index `n`. -/
theorem kmapAtomic_eq (hidx : w.state.kmapAtomicIdx = n) (hn : n < 2 ^ 30) (pte : ℕ) :
    kmapAtomic w.state pte = (fixToVirt (n + kmTypeNr),
      ⟨(n + 1 : ℕ), Function.update w.state.topPte (pteIndex (fixToVirt (n + kmTypeNr))) pte⟩) := by
  have hinc : thisCpuIncReturn w.state.kmapAtomicIdx = (n + 1 : ℕ) := by
    rw [thisCpuIncReturn, thisCpuAddReturn, hidx, ← Nat.cast_succ]
    exact toSigned_of_lt (by decide) (by omega)
  have htype : ((n + 1 : ℕ) : ℤ) - 1 = (n : ℤ) := by omega
  have hword : toUnsigned 32 (n : ℤ) = n := by
    have hcast : (toUnsigned 32 (n : ℤ) : ℤ) = n := toUnsigned_of_lt (by omega) (by omega)
    exact_mod_cast hcast
  have hslot : wrap 32 (fixKmapBegin + wrap 32 (n + kmTypeNr * 1)) = n + kmTypeNr := by
    have hsmall : wrap 32 (n + kmTypeNr) = n + kmTypeNr := wrap_of_lt (by rw [kmTypeNr]; omega)
    rw [fixKmapBegin, Nat.zero_add, Nat.mul_one, hsmall, hsmall]
  rw [kmapAtomic, kmapAtomicIdxPush]
  dsimp only
  rw [hinc, htype, hword, hslot, setTopPte]

/-- After `n` mappings and no unmapping. -/
structure Pushed (n : ℕ) (w : AtomicWorld) : Prop where
  /-- The index. -/
  idx : w.state.kmapAtomicIdx = n
  /-- The slots. -/
  slots : w.live.map Mapping.address = (List.range n).reverse.map fun i => fixToVirt (i + kmTypeNr)

/-- The depth after mappings. -/
theorem Pushed.length (h : Pushed n w) : w.live.length = n := by
  have hlen := congrArg List.length h.slots
  rwa [List.length_map, List.length_map, List.length_reverse, List.length_range] at hlen

/-- One more mapping. -/
theorem Pushed.kmap (h : Pushed n w) (hn : n < 2 ^ 30) (pte : ℕ) :
    ∃ t, perform w (.kmap pte) = some t ∧ Pushed (n + 1) t := by
  refine ⟨_, rfl, ?_⟩
  rw [kmapAtomic_eq h.idx hn]
  constructor
  · rfl
  · rw [List.map_cons, h.slots, List.range_succ, List.reverse_append, List.reverse_singleton,
      List.singleton_append, List.map_cons]

/-- A run without unmapping only pushes. -/
theorem Pushed.run (h : Pushed n w) (hlegal : Admissible perform Legal w ops)
    (hops : AtomicOp.kunmap ∉ ops) (hn : n ≤ kmTypeNr) :
    ∃ t, exec perform w ops = some t ∧ Pushed (n + ops.length) t ∧ n + ops.length ≤ kmTypeNr := by
  induction ops generalizing w n with
  | nil => exact ⟨w, rfl, h, hn⟩
  | cons op ops ih =>
    rw [List.mem_cons, not_or] at hops
    cases op with
    | kunmap => exact absurd rfl hops.1
    | kmap pte =>
      have hroom : n < kmTypeNr := by
        have hroom : w.live.length < kmTypeNr := hlegal.1
        rwa [h.length] at hroom
      obtain ⟨u, hu, hpushed⟩ := h.kmap (by rw [kmTypeNr] at hroom; omega) pte
      obtain ⟨t, ht, hrest, hle⟩ := ih hpushed (hlegal.2 u hu) hops.2 hroom
      rw [List.length_cons]
      refine ⟨t, by rw [exec, hu, Option.bind_some, ht], ?_, by omega⟩
      rwa [Nat.add_right_comm, Nat.add_assoc] at hrest

/-- Mappings that were only pushed nest in the window with which `kmap_atomic` reckons. -/
theorem Pushed.nests (h : Pushed n w) (hn : n ≤ kmTypeNr) : Nests 1 w := by
  have hk : kmTypeNr = 16 := rfl
  constructor
  · rw [h.idx, h.length]
  · rw [h.slots]
    refine List.Nodup.map_on (fun i hi j hj he => ?_) (List.nodup_reverse.mpr List.nodup_range)
    rw [List.mem_reverse, List.mem_range] at hi hj
    have := fixToVirt_inj (by omega) (by omega) he
    omega
  · intro m hm
    have haddress := List.mem_map_of_mem (f := Mapping.address) hm
    rw [h.slots, List.mem_map] at haddress
    obtain ⟨i, hi, he⟩ := haddress
    rw [List.mem_reverse, List.mem_range] at hi
    refine ⟨i, by omega, ?_⟩
    rw [← he, fixKmapBegin, Nat.zero_add, Nat.mul_one]

/-- No page is mapped. -/
theorem initWorld_pushed : Pushed 0 initWorld := ⟨rfl, rfl⟩

/-- The index is the depth in every state of a run exactly when nothing is unmapped. -/
theorem nestsAlong_iff (hlegal : Admissible perform Legal initWorld ops) :
    NestsAlong 1 ops ↔ AtomicOp.kunmap ∉ ops := by
  constructor
  · intro hnests hmem
    obtain ⟨before, after, rfl, hfirst⟩ := List.eq_append_cons_of_mem hmem
    obtain ⟨w, hw, hpushed, hle⟩ := initWorld_pushed.run hlegal.prefix hfirst (Nat.zero_le _)
    rw [Nat.zero_add] at hpushed hle
    obtain ⟨t, ht, hbad⟩ := hnests (before ++ [.kunmap]) after (by simp)
    rw [exec_append, hw, Option.bind_some, exec, Option.bind_eq_some_iff] at ht
    obtain ⟨u, hu, ht⟩ := ht
    rw [exec, Option.some.injEq] at ht
    subst ht
    have hidx := perform_idx hu
    rw [perform, Option.map_eq_some_iff] at hu
    obtain ⟨last, -, rfl⟩ := hu
    have hdepth := hbad.depth
    rw [hidx, hpushed.idx, ← Nat.cast_succ, List.length_tail, hpushed.length,
      toSigned_of_lt (by decide) (by rw [kmTypeNr] at hle; omega)] at hdepth
    omega
  · rintro hops before after rfl
    obtain ⟨w, hw, hpushed, hle⟩ := initWorld_pushed.run hlegal.prefix
      (fun hm => hops (List.mem_append_left _ hm)) (Nat.zero_le _)
    exact ⟨w, hw, hpushed.nests (by omega)⟩

/-- The slots lie in the window of the processor in every state of a run exactly when nothing is
mapped. -/
theorem nestsAlong_processor_iff (hlegal : Admissible perform Legal initWorld ops) :
    NestsAlong smpProcessorId ops ↔ ops = [] := by
  have hk : kmTypeNr = 16 := rfl
  constructor
  · intro hnests
    cases ops with
    | nil => rfl
    | cons op ops =>
      cases op with
      | kunmap => exact absurd rfl hlegal.1
      | kmap pte =>
        obtain ⟨u, hu, hpushed⟩ := initWorld_pushed.kmap (by decide) pte
        obtain ⟨t, ht, hbad⟩ := hnests [.kmap pte] ops rfl
        rw [exec, hu, Option.bind_some, exec, Option.some.injEq] at ht
        subst ht
        have hslots := hpushed.slots
        cases hlive : u.live with
        | nil =>
          have hlen := hpushed.length
          rw [hlive] at hlen
          cases hlen
        | cons m rest =>
          obtain ⟨type, htype, haddress⟩ := hbad.window m (hlive ▸ List.mem_cons_self)
          have hm : m.address ∈ u.live.map Mapping.address :=
            List.mem_map_of_mem (hlive ▸ List.mem_cons_self)
          rw [hslots, List.mem_map] at hm
          obtain ⟨i, hi, he⟩ := hm
          rw [List.mem_reverse, List.mem_range] at hi
          rw [haddress, fixKmapBegin, smpProcessorId, Nat.mul_zero] at he
          have := fixToVirt_inj (by omega) (by omega) he
          omega
  · rintro rfl before after hsplit
    obtain ⟨rfl, rfl⟩ := List.append_eq_nil_iff.mp hsplit.symm
    refine ⟨initWorld, rfl, rfl, List.nodup_nil, fun m hm => ?_⟩
    cases hm

/-- Unmapping clears the pte that mapping set, and no other one. -/
theorem kunmap_clears {m : Mapping} {rest : List Mapping} (hlive : w.live = m :: rest) :
    ∃ t, perform w .kunmap = some t ∧ t.live = rest ∧
      t.state.topPte = Function.update w.state.topPte (pteIndex m.address) 0 := by
  have hindex : pteIndex (wrap 32 (m.address / 4096 * 4096)) = pteIndex m.address := by
    rw [pteIndex, pteIndex, wrap, Nat.shiftRight_eq_div_pow, Nat.shiftRight_eq_div_pow]
    omega
  refine ⟨_, by rw [perform, hlive, List.head?_cons, Option.map_some], rfl, ?_⟩
  rw [kunmapAtomic, kmapAtomicIdxPop, setTopPte]
  dsimp only
  rw [hindex]

/-- Mapping sets one pte. -/
theorem kmap_sets (w : AtomicWorld) (pte : ℕ) :
    ∃ t m, perform w (.kmap pte) = some t ∧ t.live = m :: w.live ∧ fixaddrStart ≤ m.address ∧
      t.state.topPte = Function.update w.state.topPte (pteIndex m.address) pte :=
  ⟨_, _, rfl, rfl, Nat.le_add_right _ _, rfl⟩

/-- Atomic mappings nest in every state of a run exactly when nothing is unmapped, and in the
window of the processor exactly when nothing is mapped; unmapping clears the pte that mapping
set. -/
theorem atomicKmaps_nest_iff (hlegal : Admissible perform Legal initWorld ops) :
    (NestsAlong 1 ops ↔ AtomicOp.kunmap ∉ ops) ∧
      (NestsAlong smpProcessorId ops ↔ ops = []) ∧
      ∀ w, exec perform initWorld ops = some w →
        (∀ pte, ∃ t m, perform w (.kmap pte) = some t ∧ t.live = m :: w.live ∧
          fixaddrStart ≤ m.address ∧
          t.state.topPte = Function.update w.state.topPte (pteIndex m.address) pte) ∧
        ∀ m rest, w.live = m :: rest → ∃ t, perform w .kunmap = some t ∧ t.live = rest ∧
          t.state.topPte = Function.update w.state.topPte (pteIndex m.address) 0 :=
  ⟨nestsAlong_iff hlegal, nestsAlong_processor_iff hlegal, fun w _ =>
    ⟨kmap_sets w, fun _ _ hlive => kunmap_clears hlive⟩⟩

/-- Two mappings nest with the window of `kmap_atomic`. -/
theorem atomicKmaps_nest_iff_two : NestsAlong 1 [.kmap 1, .kmap 2] := by
  have hlegal : Admissible perform Legal initWorld [.kmap 1, .kmap 2] := by decide +kernel
  exact (atomicKmaps_nest_iff hlegal).1.mpr (by decide)

/-- A page is mapped in a slot outside of the window of the processor, and after it is unmapped the
index is two. -/
theorem unmapped_once :
    Admissible perform Legal initWorld [.kmap 1, .kunmap] ∧
      (exec perform initWorld [.kmap 1, .kunmap]).map
          (fun w => (w.state.kmapAtomicIdx, w.live.length)) = some (2, 0) ∧
      (exec perform initWorld [.kmap 1]).map (fun w => w.live.map Mapping.address) =
        some [fixToVirt (fixKmapBegin + (0 + kmTypeNr * (smpProcessorId + 1)))] := by
  refine ⟨?_, ?_, ?_⟩ <;> decide +kernel

end BiscuitOS.AtomicKmaps
