import BiscuitOS.VmallocModel
import BiscuitOS.VmapHistory

/-!
# Areas with page tables and without pages

`alloc_vm_area` and `free_vm_area` of `mm/vmalloc.c` and `apply_to_page_range`
of `mm/memory.c`. When there is no page for a table the area is freed, and
`alloc_vm_area` goes on to return it. So what it returns is right exactly when
every table is there or found, or when it returns `NULL` before that.
-/

namespace BiscuitOS.VmArea

open MachineWord RbtreeModel ColorTree VmapModel VmapTree VmapSearch VmapHistory PcpuVmModel
open VmallocModel

/-- `ENOMEM`. -/
def enomem : ℤ := 12

/-- `f`: there is nothing to do for a page. -/
def f (_ : ℕ) : ℤ := 0

/-- The loop of `apply_to_pte_range` over a number of pages. -/
def applyToPtes (fn : ℕ → ℤ) (addr : ℕ) : ℕ → ℤ
  | 0 => 0
  | n + 1 => if fn addr ≠ 0 then fn addr else applyToPtes fn (addr + pageSize) n

/-- `apply_to_pte_range`, given whether there is a page for a table. -/
def applyToPteRange (s : VmallocState) (fn : ℕ → ℤ) (addr stop : ℕ) (answer : Bool) :
    ℤ × VmallocState :=
  match pteAllocKernel s addr answer with
  | none => (-enomem, s)
  | some s => (applyToPtes fn addr ((stop - addr) / pageSize), s)

/-- `apply_to_page_range`, with fuel for its loop and the answers for page tables. -/
def applyToPageRange (s : VmallocState) (fn : ℕ → ℤ) (table : ℕ → Bool) (addr stop : ℕ) :
    ℕ → Option (ℤ × VmallocState)
  | 0 => none
  | fuel + 1 =>
    let next := pgdAddrEnd addr stop
    let r := applyToPteRange s fn addr next (table (addr / pgdirSize))
    if r.1 ≠ 0 then some r
    else if next = stop then some r
    else applyToPageRange r.2 fn table next stop fuel

/-- `free_vm_area`; the check only reports. -/
def freeVmArea (s : VmallocState) (area : ℕ) : Option VmallocState :=
  (removeVmArea s (s.vm.vms area).addr).map fun r => r.2.note (.gave (.vm area))

/-- `alloc_vm_area`, given the answers for the descriptor, the area and the page tables. -/
def allocVmArea (s : VmallocState) (vm va : Option ℕ) (table : ℕ → Bool) (size : ℕ) :
    Option (Option ℕ × VmallocState) :=
  (getVmAreaNode s size 1 vmIoremap s.vm.vmap.vmallocStart vmallocEnd vm va).bind fun r =>
    match r.1 with
    | none => some (none, r.2)
    | some area =>
      let addr := (r.2.vm.vms area).addr
      let stop := addr + (r.2.vm.vms area).size
      (applyToPageRange r.2 f table addr stop (rangeFuel addr stop)).bind fun e =>
        if e.1 ≠ 0 then (freeVmArea e.2 area).map fun s => (some area, s)
        else some (some area, e.2)

/-- What a caller may do with an area that was handed out. -/
structure Handed (s t : VmallocState) (area : ℕ) : Prop where
  /-- It is on `vmlist`. -/
  listed : area ∈ t.vm.vmlist
  /-- It is found at its address. -/
  found : findVmArea t (t.vm.vms area).addr = some area
  /-- Every page of its range has a page table. -/
  tables : ∀ v, (t.vm.vms area).addr ≤ v → v < (t.vm.vms area).addr + (t.vm.vms area).size →
    t.tables (v / pgdirSize) = true
  /-- It was not given back in the call. -/
  kept : ∃ events, t.log = events ++ s.log ∧ .gave (.vm area) ∉ events

/-- Nothing is left of a call that was refused. -/
structure Refused (s t : VmallocState) : Prop where
  /-- `vmlist` is as before. -/
  vmlist : t.vm.vmlist = s.vm.vmlist
  /-- Each descriptor taken in the call was given back once. -/
  balanced : ∃ events, t.log = events ++ s.log ∧
    ∀ vm, events.count (.took (.vm vm)) = events.count (.gave (.vm vm))

/-- The contract of `alloc_vm_area` for one call: an area that can be used, or `NULL`. -/
def Contract (s : VmallocState) (vm va : Option ℕ) (table : ℕ → Bool) (size : ℕ) : Prop :=
  ∃ t, (∃ area, allocVmArea s vm va table size = some (some area, t) ∧ Handed s t area) ∨
    allocVmArea s vm va table size = some (none, t) ∧ Refused s t

/-- Every page table between two addresses is there, or there is a page for it. -/
def TablesGiven (s : VmallocState) (table : ℕ → Bool) (addr stop : ℕ) : Prop :=
  ∀ v, addr ≤ v → v < stop → s.tables (v / pgdirSize) = true ∨ table (v / pgdirSize) = true

/-- The addresses that `__get_vm_area_node` asks for: with the guard page. -/
def guardedSize (size : ℕ) : ℕ := pageAlign size + pageSize

/-- There is an area, and between its addresses every page table is there or found. -/
def Served (s : VmallocState) (va : Option ℕ) (table : ℕ → Bool) (size : ℕ) : Prop :=
  va.isSome ∧ ∃ addr,
    searchHole s.vm.vmap (guardedSize size) (areaAlign size 1 vmIoremap) s.vm.vmap.vmallocStart
      vmallocEnd = some addr ∧
    addr + guardedSize size ≤ vmallocEnd ∧ TablesGiven s table addr (addr + guardedSize size)

/-- What the allocators promise: a descriptor that is not in use and a node that is not in the tree;
the areas are in order at kernel addresses. -/
structure Ready (s : VmallocState) (va : Option ℕ) : Prop where
  /-- The areas are in order. -/
  ordered : Ordered s.vm.vmap
  /-- They lie at kernel addresses. -/
  kernel : ∀ a ∈ s.vm.vmap.areaList, hi s.vm.vmap a ≤ 2 ^ 32
  /-- The first address for areas. -/
  start : s.vm.vmap.vmallocStart ≤ 2 ^ 32
  /-- A new node. -/
  node : ∀ a ∈ va, a ≠ 0 ∧ a % 4 = 0 ∧ a ∉ s.vm.vmap.areaList

/-- The end of the piece that starts at an address. -/
theorem pgdAddrEnd_eq {addr stop : ℕ} (hlt : addr < stop) (hbound : stop ≤ 2 ^ 32) :
    pgdAddrEnd addr stop = min ((addr / pgdirSize + 1) * pgdirSize) stop := by
  have hboundary : alignDown 64 (addr + pgdirSize) pgdirSize =
      (addr / pgdirSize + 1) * pgdirSize := by
    rw [pgdirSize, alignDown_two_pow (by omega) (by omega)]
    omega
  rw [pgdirSize] at hboundary ⊢
  rw [pgdAddrEnd, pgdirSize, hboundary, wrapSub_of_le (by omega) (by omega),
    wrapSub_of_le (by omega) (by omega)]
  split <;> omega

/-- There is nothing to do for the pages of a range. -/
theorem applyToPtes_f (addr n : ℕ) : applyToPtes f addr n = 0 := by
  induction n generalizing addr with
  | zero => rfl
  | succ n ih =>
    have hzero : ¬f addr ≠ 0 := not_not.mpr rfl
    rw [applyToPtes, if_neg hzero]
    exact ih _

/-- What a table for an address leaves, and when it is given. -/
theorem applyToPteRange_spec (s : VmallocState) (addr stop : ℕ) (answer : Bool) :
    ((applyToPteRange s f addr stop answer).1 = 0 ↔
        s.tables (addr / pgdirSize) = true ∨ answer = true) ∧
      (applyToPteRange s f addr stop answer).2.vm = s.vm ∧
      (applyToPteRange s f addr stop answer).2.log = s.log ∧
      ((applyToPteRange s f addr stop answer).1 = 0 →
        (applyToPteRange s f addr stop answer).2.tables =
          Function.update s.tables (addr / pgdirSize) true) := by
  rw [applyToPteRange, pteAllocKernel]
  by_cases hthere : s.tables (addr / pgdirSize) = true
  · rw [if_pos hthere]
    dsimp only
    rw [applyToPtes_f]
    refine ⟨⟨fun _ => .inl hthere, fun _ => rfl⟩, rfl, rfl, fun _ => ?_⟩
    rw [← hthere, Function.update_eq_self]
  · rw [if_neg hthere]
    cases answer with
    | true =>
      rw [if_pos rfl]
      dsimp only
      rw [applyToPtes_f]
      exact ⟨⟨fun _ => .inr rfl, fun _ => rfl⟩, rfl, rfl, fun _ => rfl⟩
    | false =>
      rw [if_neg Bool.false_ne_true]
      dsimp only
      have herr : ¬(-enomem = 0) := by decide
      refine ⟨⟨fun h => absurd h herr, fun h => ?_⟩, rfl, rfl, fun h => absurd h herr⟩
      rcases h with h | h
      · exact absurd h hthere
      · cases h

/-- `apply_to_page_range` gives zero exactly when every page table is given, and then every page of
the range has one. -/
theorem applyToPageRange_spec (table : ℕ → Bool) {stop : ℕ} (hbound : stop ≤ 2 ^ 32)
    (hstop : pageSize ∣ stop) (fuel : ℕ) (s : VmallocState) {addr : ℕ} (hlt : addr < stop)
    (haddr : pageSize ∣ addr) (hfuel : (stop - addr) / pageSize ≤ fuel) :
    ∃ e t, applyToPageRange s f table addr stop fuel = some (e, t) ∧
      (e = 0 ↔ TablesGiven s table addr stop) ∧ t.vm = s.vm ∧ t.log = s.log ∧
      (∀ k, s.tables k = true → e = 0 → t.tables k = true) ∧
      (e = 0 → ∀ v, addr ≤ v → v < stop → t.tables (v / pgdirSize) = true) := by
  induction fuel generalizing s addr with
  | zero =>
    rw [pageSize] at *
    omega
  | succ fuel ih =>
    obtain ⟨hzero, hvm, hlog, htables⟩ :=
      applyToPteRange_spec s addr (pgdAddrEnd addr stop) (table (addr / pgdirSize))
    have hnext := pgdAddrEnd_eq hlt hbound
    rw [applyToPageRange]
    generalize applyToPteRange s f addr (pgdAddrEnd addr stop) (table (addr / pgdirSize)) = r
      at hzero hvm hlog htables ⊢
    have hpiece : ∀ v, addr ≤ v → v < pgdAddrEnd addr stop → v / pgdirSize = addr / pgdirSize := by
      intro v hlo hhi
      rw [hnext, pgdirSize] at hhi
      rw [pgdirSize]
      omega
    by_cases herr : r.1 = 0
    · have hhere := hzero.mp herr
      have hset := htables herr
      rw [if_neg (not_not.mpr herr)]
      by_cases hlast : pgdAddrEnd addr stop = stop
      · rw [if_pos hlast]
        rw [hlast] at hpiece
        refine ⟨r.1, r.2, rfl, ⟨fun _ v hlo hhi => ?_, fun _ => herr⟩, hvm, hlog,
          fun k hk _ => ?_, fun _ v hlo hhi => ?_⟩
        · rw [hpiece v hlo hhi]
          exact hhere
        · rw [hset, Function.update_apply]
          split
          · rfl
          · exact hk
        · rw [hpiece v hlo hhi, hset, Function.update_self]
      · rw [if_neg hlast]
        have hin : pgdAddrEnd addr stop < stop ∧ addr < pgdAddrEnd addr stop ∧
            pageSize ∣ pgdAddrEnd addr stop := by
          rw [hnext, pgdirSize, pageSize] at *
          omega
        generalize pgdAddrEnd addr stop = next at hpiece hin hlast ⊢
        obtain ⟨e, t, hrun, hgiven, hvm', hlog', hkeep, hall⟩ := ih r.2 hin.1 hin.2.2 (by
          rw [pageSize] at *
          omega)
        have hmono : ∀ k, s.tables k = true → r.2.tables k = true := by
          intro k hk
          rw [hset, Function.update_apply]
          split
          · rfl
          · exact hk
        refine ⟨e, t, hrun, ⟨fun he v hlo hhi => ?_, fun hg => hgiven.mpr fun v hlo hhi => ?_⟩,
          hvm'.trans hvm, hlog'.trans hlog, fun k hk he => hkeep k (hmono k hk) he,
          fun he v hlo hhi => ?_⟩
        · by_cases hbefore : v < next
          · rw [hpiece v hlo hbefore]
            exact hhere
          · by_cases hsame : v / pgdirSize = addr / pgdirSize
            · rw [hsame]
              exact hhere
            · have hv := hgiven.mp he v (by omega) hhi
              rwa [hset, Function.update_of_ne hsame] at hv
        · exact (hg v (by omega) hhi).imp_left (hmono _)
        · by_cases hbefore : v < next
          · rw [hpiece v hlo hbefore]
            refine hkeep _ ?_ he
            rw [hset, Function.update_self]
          · exact hall he v (by omega) hhi
    · rw [if_pos herr]
      refine ⟨r.1, r.2, rfl, ⟨fun h => absurd h herr, fun hg => hzero.mpr ?_⟩, hvm, hlog,
        fun k _ h => absurd h herr, fun h => absurd h herr⟩
      exact hg addr le_rfl hlt

/-- A size in whole pages is one of 32 bits. -/
theorem pageAlign_spec (x : ℕ) : pageAlign x < 2 ^ 32 ∧ pageSize ∣ pageAlign x := by
  have hmask : (BitVec.zeroExtend 64 (~~~(BitVec.ofNat 32 pageSize - 1#32))).toNat = 0xFFFFF000 := by
    decide
  rw [pageAlign, BitVec.toNat_and, hmask]
  constructor
  · exact Nat.lt_of_le_of_lt Nat.and_le_right (by decide)
  · have hmod : ((BitVec.ofNat 64 x).toNat &&& 0xFFFFF000) % 2 ^ 12 = 0 := by
      rw [Nat.and_mod_two_pow]
      have hlow : 0xFFFFF000 % 2 ^ 12 = 0 := by decide
      rw [hlow, Nat.and_zero]
    exact Nat.dvd_of_mod_eq_zero hmod

/-- The alignment of an area for `ioremap` is a page at least. -/
theorem areaAlign_spec (size align : ℕ) : ∃ k, 12 ≤ k ∧ k ≤ 19 ∧
    areaAlign size align vmIoremap = 2 ^ k := by
  have hflag : vmIoremap &&& vmIoremap ≠ 0 := by decide
  rw [areaAlign, if_pos hflag, ioremapMaxOrder, pageShift]
  generalize fls size = bit
  refine ⟨_, ?_, ?_, rfl⟩
  · split
    · omega
    · split <;> omega
  · split
    · omega
    · split <;> omega

variable {s : VmallocState} {vm va : Option ℕ} {size : ℕ}

/-- The request for an area is one that the allocator of areas is made for. -/
theorem Ready.request (hr : Ready s va) (size : ℕ) :
    Legal s.vm.vmap (.alloc (guardedSize size) (areaAlign size 1 vmIoremap)
        s.vm.vmap.vmallocStart vmallocEnd va) ∧
      NoWrap s.vm.vmap (guardedSize size) (areaAlign size 1 vmIoremap) s.vm.vmap.vmallocStart
        vmallocEnd := by
  obtain ⟨hlt, hdvd⟩ := pageAlign_spec size
  obtain ⟨k, hk12, hk19, halign⟩ := areaAlign_spec size 1
  have hpow : 2 ^ k ≤ 2 ^ 19 := Nat.pow_le_pow_right (by decide) hk19
  have hsize : guardedSize size < 2 ^ 33 := by
    rw [guardedSize, pageSize]
    omega
  have hpos : 0 < guardedSize size := by
    rw [guardedSize, pageSize]
    omega
  have hok : ∀ x, x ≤ 2 ^ 32 + pageSize → CandidateOk (guardedSize size) (2 ^ k) x := by
    intro x hx
    rw [pageSize] at hx
    have hup := (alignUp_spec (w := 64) (x := x) (show k < 64 by omega) (by omega)).2.1
    exact ⟨by omega, by omega⟩
  rw [halign]
  refine ⟨⟨hpos, by omega, Nat.dvd_add hdvd (Nat.dvd_refl _), ⟨k, by omega, rfl⟩, hr.node⟩,
    hok _ (hr.start.trans (Nat.le_add_right _ _)), fun a ha _ _ => hok _ ?_⟩
  have := hr.kernel a ha
  omega

/-- A descriptor that is linked is in the list. -/
theorem mem_linkVm (vms : ℕ → VmStruct) (vm : ℕ) (l : List ℕ) : vm ∈ linkVm vms vm l := by
  induction l with
  | nil => exact List.mem_singleton_self vm
  | cons tmp l ih =>
    rw [linkVm]
    split
    · exact List.mem_cons_self
    · exact List.mem_cons_of_mem _ ih

/-- An area as `__get_vm_area_node` hands it out. -/
structure Placed (s t : VmallocState) (area addr size : ℕ) : Prop where
  /-- Its address. -/
  addr_eq : (t.vm.vms area).addr = addr
  /-- Its size. -/
  size_eq : (t.vm.vms area).size = size
  /-- It is on `vmlist`. -/
  listed : area ∈ t.vm.vmlist
  /-- It is found. -/
  found : findVmArea t addr = some area
  /-- What happened. -/
  log : t.log = .placed addr :: .took (.vm area) :: s.log

/-- Only the areas and what happened matter. -/
theorem Placed.congr {s t u : VmallocState} {area addr size : ℕ} (h : Placed s t area addr size)
    (hvm : u.vm = t.vm) (hlog : u.log = t.log) : Placed s u area addr size := by
  have hfound := h.found
  rw [findVmArea, ← hvm] at hfound
  exact ⟨by rw [hvm, h.addr_eq], by rw [hvm, h.size_eq], by rw [hvm]; exact h.listed, hfound,
    hlog.trans h.log⟩

/-- An area is placed where the search finds room. -/
theorem getVmAreaNode_placed (hr : Ready s va) {area node addr : ℕ} (hva : va = some node)
    (hsize : pageAlign size ≠ 0)
    (hfound : searchHole s.vm.vmap (guardedSize size) (areaAlign size 1 vmIoremap)
      s.vm.vmap.vmallocStart vmallocEnd = some addr)
    (hend : addr + guardedSize size ≤ vmallocEnd) :
    ∃ t, getVmAreaNode s size 1 vmIoremap s.vm.vmap.vmallocStart vmallocEnd (some area) va =
        some (some area, t) ∧ Placed s t area addr (guardedSize size) ∧ t.tables = s.tables := by
  obtain ⟨hlegal, hno⟩ := hr.request size
  obtain ⟨T, hT⟩ := hr.ordered
  obtain ⟨hn0, -, hnew⟩ := hr.node node hva
  rw [hva] at hlegal ⊢
  obtain ⟨u, T', halloc, hareas, hupdate, hperm, -, -⟩ :=
    allocVmapArea_placed hT hlegal hno hfound hend
  have hrun : getVmAreaNode s size 1 vmIoremap s.vm.vmap.vmallocStart vmallocEnd (some area)
      (some node) =
      (allocVmapArea s.vm.vmap (guardedSize size) (areaAlign size 1 vmIoremap)
        s.vm.vmap.vmallocStart vmallocEnd (some node)).bind fun r =>
        r.1.bind fun va =>
          let t := setVm (s.note (.took (.vm area))) area ⟨0, 0, 0, 0, 0⟩
          let t := { t with vm := insertVmallocVm { t.vm with vmap := r.2 } area va vmIoremap }
          some (some area, t.note (.placed (t.vm.vms area).addr)) := by
    rw [getVmAreaNode, if_neg hsize, guardedSize]
    dsimp only
    congr 1
    funext r
    cases r.1 <;> rfl
  rw [hrun, halloc, Option.bind_some, Option.bind_some]
  refine ⟨_, rfl, ?_⟩
  have hself : u.areas node = placedArea (s.vm.vmap.areas node) addr (addr + guardedSize size) := by
    rw [hupdate, Function.update_self]
  have hlo : (u.areas node).vaStart = addr := by rw [hself, placedArea]
  have hhi : (u.areas node).vaEnd = addr + guardedSize size := by rw [hself, placedArea]
  have hbound : addr + guardedSize size < 2 ^ 64 := hend.trans_lt (by decide)
  have hsub : wrapSub 64 (addr + guardedSize size) addr = guardedSize size := by
    rw [wrapSub_of_le hbound (Nat.le_add_right _ _), Nat.add_sub_cancel_left]
  have hmem : node ∈ T'.items := hperm.mem_iff.mpr List.mem_cons_self
  generalize hw : setArea u node { u.areas node with private_ := area, vmArea := true } = w
  have hwnode : w.areas node = { u.areas node with private_ := area, vmArea := true } := by
    rw [← hw]
    exact Function.update_self _ _ _
  have hbounds : ∀ a, lo w a = lo u a ∧ hi w a = hi u a := by
    intro a
    by_cases ha : a = node
    · rw [ha, lo, hi, hwnode]
      exact ⟨rfl, rfl⟩
    · rw [← hw, lo, hi, setArea]
      dsimp only
      rw [Function.update_of_ne ha]
      exact ⟨rfl, rfl⟩
  have hareas' : Areas w T' := by
    refine hareas.congr ?_ ?_ (fun a _ => (hbounds a).1) fun a _ => (hbounds a).2
    · rw [← hw]
      rfl
    · rw [← hw]
      rfl
  have hfind := findVmapArea_found hareas' hmem
  rw [(hbounds node).1, lo, hlo] at hfind
  refine ⟨⟨?_, ?_, ?_, ?_, ?_⟩, rfl⟩
  · simp only [VmallocState.note, insertVmallocVm, Function.update_self, hlo]
  · simp only [VmallocState.note, insertVmallocVm, Function.update_self, hlo, hhi, hsub]
  · exact mem_linkVm _ _ _
  · simp only [findVmArea, VmallocState.note, insertVmallocVm, hw, hfind, Option.map_some, hwnode,
      ne_eq, hn0, not_false_eq_true, and_self, if_true]
  · simp only [VmallocState.note, setVm, insertVmallocVm, Function.update_self, hlo]

/-- Without an area for the size nothing is returned. -/
theorem getVmAreaNode_stops (hr : Ready s va) {area : ℕ} (hsize : pageAlign size ≠ 0)
    (hno : ¬(va.isSome ∧ ∃ addr,
      searchHole s.vm.vmap (guardedSize size) (areaAlign size 1 vmIoremap) s.vm.vmap.vmallocStart
        vmallocEnd = some addr ∧ addr + guardedSize size ≤ vmallocEnd)) :
    getVmAreaNode s size 1 vmIoremap s.vm.vmap.vmallocStart vmallocEnd (some area) va = none := by
  obtain ⟨hlegal, hwrap⟩ := hr.request size
  obtain ⟨T, hT⟩ := hr.ordered
  rw [getVmAreaNode, if_neg hsize]
  dsimp only [setVm, VmallocState.note]
  cases va with
  | none => rfl
  | some node =>
    rw [← guardedSize, Option.bind_eq_none_iff]
    intro r halloc
    rcases allocVmapArea_areas hT hlegal hwrap halloc with ⟨hnone, _⟩ |
      ⟨a, addr, T', ha, hr1, _, _, hend, _⟩
    · cases hnone
    · simp only [allocVmapArea, Option.bind_eq_some_iff] at halloc
      obtain ⟨addr', hfound, hplace⟩ := halloc
      obtain ⟨hpos, hlt, -, ⟨k, hk, halign⟩, -⟩ := hlegal
      have hf : Found s.vm.vmap T (guardedSize size) (areaAlign size 1 vmIoremap)
          s.vm.vmap.vmallocStart vmallocEnd addr' := by
        rw [halign] at hwrap hfound ⊢
        exact searchHole_found hT hk ⟨hpos, hlt⟩ hwrap hfound
      rw [wrap_of_lt hf.bound] at hplace
      by_cases hover : vmallocEnd < addr' + guardedSize size
      · rw [if_pos hover] at hplace
        cases hplace
      · exact absurd ⟨rfl, addr', hfound, not_lt.mp hover⟩ hno

/-- Unmapping pages notes nothing. -/
theorem vunmapPteRange_log (s : VmallocState) (addr n : ℕ) :
    (vunmapPteRange s addr n).log = s.log := by
  induction n generalizing s addr with
  | zero => rfl
  | succ n ih =>
    rw [vunmapPteRange, ih]
    rfl

/-- Unmapping a range notes nothing. -/
theorem vunmapPageRange_log {s t : VmallocState} {addr stop fuel : ℕ}
    (h : vunmapPageRange s addr stop fuel = some t) : t.log = s.log := by
  induction fuel generalizing s addr with
  | zero => cases h
  | succ fuel ih =>
    rw [vunmapPageRange] at h
    have hpiece : (if s.tables (addr / pgdirSize) then
        vunmapPteRange s addr ((pgdAddrEnd addr stop - addr) / pageSize) else s).log = s.log := by
      split
      · exact vunmapPteRange_log s _ _
      · rfl
    generalize (if s.tables (addr / pgdirSize) then
      vunmapPteRange s addr ((pgdAddrEnd addr stop - addr) / pageSize) else s) = u at h hpiece
    by_cases hlast : pgdAddrEnd addr stop = stop
    · rw [if_pos hlast, Option.some.injEq] at h
      rw [← h, hpiece]
    · rw [if_neg hlast] at h
      rw [ih h, hpiece]

/-- `remove_vm_area` only adds to what happened. -/
theorem removeVmArea_log {s : VmallocState} {addr : ℕ} {r : Option ℕ × VmallocState}
    (h : removeVmArea s addr = some r) : ∃ events, r.2.log = events ++ s.log := by
  simp only [removeVmArea, Option.bind_eq_some_iff] at h
  obtain ⟨a, _, h⟩ := h
  by_cases harea : a ≠ 0 ∧ (s.vm.vmap.areas a).vmArea = true
  · rw [if_pos harea] at h
    simp only [Option.bind_eq_some_iff, Option.map_eq_some_iff] at h
    obtain ⟨l, _, t, hunmap, vmap, _, hr⟩ := h
    rw [← hr]
    refine ⟨[.removed addr (wasFreed (s.vm.vmap.areas a))], ?_⟩
    simp only [VmallocState.note, setVm, vunmapPageRange_log hunmap, List.singleton_append]
  · rw [if_neg harea, Option.some.injEq] at h
    rw [← h]
    exact ⟨[], rfl⟩

/-- An area that was given back is not handed out. -/
theorem not_handed_of_freed {s t u : VmallocState} {area addr n : ℕ}
    (hplaced : Placed s t area addr n) (hfree : freeVmArea t area = some u) :
    ¬Handed s u area := by
  intro hhanded
  obtain ⟨events, hlog, hnot⟩ := hhanded.kept
  rw [freeVmArea, Option.map_eq_some_iff] at hfree
  obtain ⟨r, hremove, hu⟩ := hfree
  obtain ⟨before, hbefore⟩ := removeVmArea_log hremove
  have hu' : u.log = .gave (.vm area) :: (before ++ t.log) := by
    rw [← hu, VmallocState.note, hbefore]
  rw [hu', hplaced.log] at hlog
  cases events with
  | nil =>
    have hlen := congrArg List.length hlog
    simp only [List.length_cons, List.length_append, List.length_nil] at hlen
    omega
  | cons e rest =>
    rw [List.cons_append, List.cons.injEq] at hlog
    rw [← hlog.1] at hnot
    exact hnot List.mem_cons_self

/-- A call that takes nothing is refused. -/
theorem Refused.refl (s : VmallocState) : Refused s s :=
  ⟨rfl, [], rfl, fun _ => rfl⟩

/-- `alloc_vm_area` meets its contract exactly when it is refused before anything is taken, or there
is an area and every page table of its range is there or found. -/
theorem allocVmArea_contract_iff (s : VmallocState) (vm va : Option ℕ) (table : ℕ → Bool) (size : ℕ)
    (hr : Ready s va) :
    Contract s vm va table size ↔ pageAlign size = 0 ∨ vm = none ∨ Served s va table size := by
  by_cases hsize : pageAlign size = 0
  · have hrun : allocVmArea s vm va table size = some (none, s) := by
      simp only [allocVmArea, getVmAreaNode, hsize, if_true, Option.bind_some]
    exact ⟨fun _ => .inl hsize, fun _ => ⟨s, .inr ⟨hrun, .refl s⟩⟩⟩
  cases vm with
  | none =>
    have hrun : allocVmArea s none va table size = some (none, s) := by
      simp only [allocVmArea, getVmAreaNode, if_neg hsize, Option.bind_some]
    exact ⟨fun _ => .inr (.inl rfl), fun _ => ⟨s, .inr ⟨hrun, .refl s⟩⟩⟩
  | some area =>
    have hserved : (pageAlign size = 0 ∨ some area = none ∨ Served s va table size) ↔
        Served s va table size := by
      refine ⟨fun h => ?_, fun h => .inr (.inr h)⟩
      rcases h with h | h | h
      · exact absurd h hsize
      · cases h
      · exact h
    rw [hserved]
    by_cases hroom : va.isSome ∧ ∃ addr,
        searchHole s.vm.vmap (guardedSize size) (areaAlign size 1 vmIoremap)
          s.vm.vmap.vmallocStart vmallocEnd = some addr ∧ addr + guardedSize size ≤ vmallocEnd
    · obtain ⟨hsome, addr, hfound, hend⟩ := hroom
      obtain ⟨node, hnode⟩ := Option.isSome_iff_exists.mp hsome
      obtain ⟨t, hnodeRun, hplaced, htables⟩ :=
        @getVmAreaNode_placed _ _ _ hr area _ _ hnode hsize hfound hend
      obtain ⟨hlt, hdvd⟩ := pageAlign_spec size
      obtain ⟨k, hk12, _, halign⟩ := areaAlign_spec size 1
      have haddr : pageSize ∣ addr := by
        obtain ⟨hlegal, hno⟩ := hr.request size
        obtain ⟨T, hT⟩ := hr.ordered
        rw [halign] at hno hfound
        have hf := searchHole_found hT (show k < 64 by omega) ⟨hlegal.1, hlegal.2.1⟩ hno hfound
        exact (Nat.pow_dvd_pow 2 hk12).trans hf.aligned
      have hguard : pageSize ∣ guardedSize size := Nat.dvd_add hdvd (Nat.dvd_refl _)
      have hpos : 0 < guardedSize size := by
        rw [guardedSize, pageSize]
        omega
      obtain ⟨e, u, hwalk, hgiven, hvm, hlog, _, hall⟩ :=
        @applyToPageRange_spec table (addr + guardedSize size)
          (hend.trans (by decide)) (Nat.dvd_add haddr hguard)
          (rangeFuel addr (addr + guardedSize size)) t _ (by omega) haddr
          (by rw [rangeFuel]; exact Nat.le_succ _)
      have hplaced' := hplaced.congr hvm hlog
      have hgiven' : TablesGiven t table addr (addr + guardedSize size) ↔ Served s va table size := by
        rw [TablesGiven, htables]
        constructor
        · exact fun h => ⟨hsome, addr, hfound, hend, h⟩
        · intro h
          obtain ⟨_, addr', hfound', _, h⟩ := h
          rw [hfound, Option.some.injEq] at hfound'
          rwa [← hfound'] at h
      have hrun : allocVmArea s (some area) va table size =
          if e ≠ 0 then (freeVmArea u area).map fun s => (some area, s)
          else some (some area, u) := by
        simp only [allocVmArea, hnodeRun, Option.bind_some, hplaced.addr_eq, hplaced.size_eq, hwalk]
      rw [← hgiven', ← hgiven]
      constructor
      · intro hcontract
        by_contra herr
        rw [Contract, hrun, if_pos herr] at hcontract
        obtain ⟨v, ⟨area', hres, hhanded⟩ | ⟨hres, _⟩⟩ := hcontract
        · rw [Option.map_eq_some_iff] at hres
          obtain ⟨w, hfree, heq⟩ := hres
          rw [Prod.mk.injEq, Option.some.injEq] at heq
          obtain ⟨harea, hw⟩ := heq
          rw [← harea, ← hw] at hhanded
          exact not_handed_of_freed hplaced' hfree hhanded
        · rw [Option.map_eq_some_iff] at hres
          obtain ⟨w, _, heq⟩ := hres
          cases heq
      · intro hzero
        rw [Contract, hrun, if_neg (not_not.mpr hzero)]
        refine ⟨u, .inl ⟨area, rfl, hplaced'.listed, ?_, ?_, ?_⟩⟩
        · rw [hplaced'.addr_eq]
          exact hplaced'.found
        · rw [hplaced'.addr_eq, hplaced'.size_eq]
          exact hall hzero
        · refine ⟨[.placed addr, .took (.vm area)], hplaced'.log, ?_⟩
          simp only [List.mem_cons, List.not_mem_nil, reduceCtorEq, or_self, not_false_eq_true]
    · have hstops := @getVmAreaNode_stops _ _ _ hr area hsize hroom
      have hrun : allocVmArea s (some area) va table size = none := by
        rw [allocVmArea, hstops, Option.bind_none]
      constructor
      · intro hcontract
        rw [Contract, hrun] at hcontract
        obtain ⟨t, ⟨area', hres, _⟩ | ⟨hres, _⟩⟩ := hcontract
        · cases hres
        · cases hres
      · intro h
        obtain ⟨hsome, addr, hfound, hend, _⟩ := h
        exact absurd ⟨hsome, addr, hfound, hend⟩ hroom

/-- No areas and no page tables. -/
def noTables : VmallocState :=
  ⟨⟨noAreas, [], fun _ => ⟨0, 0, 0, 0, 0⟩⟩, fun _ => none, fun _ => false, fun _ _ => 0, 0, []⟩

/-- The allocators can be asked. -/
theorem noTables_ready : Ready noTables (some 8) where
  ordered := noAreas_ordered
  kernel := fun a ha => (by cases ha)
  start := by decide
  node := fun a ha => by
    rw [Option.mem_some_iff] at ha
    rw [← ha]
    exact ⟨by decide, by decide, List.not_mem_nil⟩

/-- Two pages with memory for their page table. -/
theorem allocVmArea_contract_iff_twoPages :
    Contract noTables (some 16) (some 8) (fun _ => true) 8192 :=
  (allocVmArea_contract_iff noTables (some 16) (some 8) (fun _ => true) 8192 noTables_ready).mpr
    (.inr (.inr ⟨rfl, 0xD0800000, by decide +kernel, by decide, fun _ _ _ => .inr rfl⟩))

/-- Without memory for a page table the area is given back and returned. -/
theorem allocVmArea_contract_fails :
    ¬Contract noTables (some 16) (some 8) (fun _ => false) 8192 := by
  have hrun : (allocVmArea noTables (some 16) (some 8) (fun _ => false) 8192).map
      (fun r => (r.1, r.2.log)) = some (some 16, [.gave (.vm 16), .removed 0xD0800000 false,
        .placed 0xD0800000, .took (.vm 16)]) := by decide +kernel
  intro hcontract
  obtain ⟨t, ⟨area, hres, hhanded⟩ | ⟨hres, _⟩⟩ := hcontract
  · rw [hres, Option.map_some, Option.some.injEq, Prod.mk.injEq, Option.some.injEq] at hrun
    obtain ⟨events, hlog, hnot⟩ := hhanded.kept
    have hall : events = [.gave (.vm 16), .removed 0xD0800000 false, .placed 0xD0800000,
        .took (.vm 16)] := by
      rw [hrun.2] at hlog
      exact (List.append_nil events).symm.trans hlog.symm
    rw [hall, hrun.1] at hnot
    exact hnot List.mem_cons_self
  · rw [hres] at hrun
    cases hrun

end BiscuitOS.VmArea
