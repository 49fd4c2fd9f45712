import BiscuitOS.VmapModel

/-!
# Congruent areas for the per-cpu allocator

`insert_vmalloc_vm` and the helpers of `pcpu_get_vm_areas` in `mm/vmalloc.c`,
and `pcpu_get_vm_areas` in `mm/percpu.c`. `vmlist` is a list of the addresses
of `struct vm_struct`.
-/

namespace BiscuitOS.PcpuVmModel

open MachineWord ColorTree RbtreeModel VmapModel

/-- `VM_ALLOC`. -/
def vmAlloc : ℕ := 2

/-- `struct vm_struct`. -/
structure VmStruct where
  /-- `addr`. -/
  addr : ℕ
  /-- `size`. -/
  size : ℕ
  /-- `flags`. -/
  flags : ℕ
  /-- `pages`. -/
  pages : ℕ
  /-- `nr_pages`. -/
  nrPages : ℕ
  deriving DecidableEq

/-- The areas and `vmlist`. -/
structure VmState where
  /-- The areas. -/
  vmap : VmapState
  /-- `vmlist`. -/
  vmlist : List ℕ
  /-- The descriptors, by address. -/
  vms : ℕ → VmStruct

/-- Link a descriptor before the first one that does not have a lower address. -/
def linkVm (vms : ℕ → VmStruct) (vm : ℕ) : List ℕ → List ℕ
  | [] => [vm]
  | tmp :: l => if (vms vm).addr ≤ (vms tmp).addr then vm :: tmp :: l else tmp :: linkVm vms vm l

/-- `insert_vmalloc_vm`. -/
def insertVmallocVm (s : VmState) (vm va flags : ℕ) : VmState :=
  let area := s.vmap.areas va
  let vms := Function.update s.vms vm
    { s.vms vm with
      flags := flags
      addr := area.vaStart
      size := wrapSub 64 area.vaEnd area.vaStart }
  { vmap := setArea s.vmap va { area with private_ := vm, vmArea := true }
    vmlist := linkVm vms vm s.vmlist
    vms := vms }

/-- `VMALLOC_END` rounded down. -/
def alignedEnd (align : ℕ) : ℕ := alignDown 64 vmallocEnd align

/-- `VMALLOC_START` rounded up. -/
def alignedStart (s : VmapState) (align : ℕ) : ℕ := alignUp 64 s.vmallocStart align

/-- The address that `pvm_determine_end` starts from. -/
def endBelow (s : VmapState) (align next : ℕ) : ℕ :=
  if next ≠ 0 then min (alignDown 64 (s.areas next).vaStart align) (alignedEnd align)
  else alignedEnd align

/-- The areas asked for: `offsets`, `sizes`, `nr_vms` and `align`. -/
structure Request where
  /-- `offsets`. -/
  offsets : ℕ → ℕ
  /-- `sizes`. -/
  sizes : ℕ → ℕ
  /-- `nr_vms`. -/
  nrVms : ℕ
  /-- `align`. -/
  align : ℕ

/-- The end of an area asked for. -/
def Request.stop (q : Request) (area : ℕ) : ℕ := wrap 64 (q.offsets area + q.sizes area)

/-- The loop that looks for the area with the highest offset. -/
def Request.lastFrom (q : Request) (area last : ℕ) : ℕ → ℕ
  | 0 => last
  | n + 1 => q.lastFrom (area + 1) (if q.offsets last < q.offsets area then area else last) n

/-- `last_area`. -/
def Request.lastArea (q : Request) : ℕ := q.lastFrom 0 0 q.nrVms

/-- `last_end`. -/
def Request.lastEnd (q : Request) : ℕ := q.stop q.lastArea

/-- The answers of `kzalloc`: the two arrays, the areas and the descriptors. -/
structure Answers where
  /-- Both arrays are there. -/
  arrays : Bool
  /-- `vas`. -/
  vas : ℕ → Option ℕ
  /-- `vms`. -/
  vms : ℕ → Option ℕ

/-- All allocations succeed. -/
def Answers.all (answers : Answers) (nrVms : ℕ) : Bool :=
  answers.arrays &&
    (List.range nrVms).all fun i => (answers.vas i).isSome && (answers.vms i).isSome

end BiscuitOS.PcpuVmModel
