import BiscuitOS.MeminfoSort
import BiscuitOS.MeminfoLimit
import BiscuitOS.MemblockHistory

/-!
# Boot memory

`arm_add_memory` of `arch/arm/kernel/setup.c`, which records the banks that
the loader reports, and `arm_memblock_init` of `arch/arm/mm/init.c`, which
sorts them and fills the memory table of memblock with them.
-/

namespace BiscuitOS.BootMemory

open MachineWord TransitionRun ArrayWindow MemblockModel MemblockTable MemblockUpdate MemblockHistory
open MeminfoModel MeminfoSort

/-- `meminfo` before the first bank. -/
def emptyMeminfo : Meminfo := ⟨0, fun _ => ⟨0, 0, false⟩⟩

/-- `arm_add_memory`: what it returns, and the banks. A range that is refused is written behind the
banks nevertheless. -/
def armAddMemory (start size : ℕ) (mi : Meminfo) : ℤ × Meminfo :=
  if maxBanks ≤ mi.nrBanks then (-12, mi)
  else
    let size := wrapSub 64 size (start &&& 0xFFF)
    let b := { mi.bank mi.nrBanks with start := alignDown 32 start 4096, size := alignDown 32 size 4096 }
    let bank := Function.update mi.bank mi.nrBanks b
    if b.size = 0 then (-12, { mi with bank := bank }) else (0, ⟨mi.nrBanks + 1, bank⟩)

/-- A call that accepts its range. -/
def accept (mi : Meminfo) (range : ℕ × ℕ) : Option Meminfo :=
  if (armAddMemory range.1 range.2 mi).1 = 0 then some (armAddMemory range.1 range.2 mi).2 else none

/-- `memblock_add` of a bank. -/
def memblockAdd (depth : ℕ) (m : Memblock) (b : Membank) : Option Memblock :=
  (memblockAddRegion depth .memory b.start b.size m).map Prod.snd

/-- `arm_memblock_init`, given the physical address of `swapper_pg_dir`. -/
def armMemblockInit (depth pgd : ℕ) (mi : Meminfo) : Option (Meminfo × Memblock) :=
  (sortBanks mi.nrBanks mi.bank).bind fun bank =>
    (exec (memblockAdd depth) memblockInit (window bank 0 mi.nrBanks)).bind fun m =>
      (memblockAddRegion depth .reserved pgd 16384 m).map fun added => (⟨mi.nrBanks, bank⟩, added.2)

/-- A bank of whole pages. -/
structure Whole (b : Membank) : Prop where
  /-- It starts at a page. -/
  start_dvd : 4096 ∣ b.start
  /-- It has whole pages only. -/
  size_dvd : 4096 ∣ b.size
  /-- It has one. -/
  pos : 0 < b.size
  /-- Its start is a word. -/
  start_lt : b.start < 2 ^ 32

/-- The banks of ranges that were all accepted, with nothing behind them. -/
structure Recorded (mi : Meminfo) : Prop where
  /-- They fit the array. -/
  count : mi.nrBanks ≤ maxBanks
  /-- They have whole pages. -/
  whole : ∀ i < mi.nrBanks, Whole (mi.bank i)
  /-- The entries behind them are untouched. -/
  behind : ∀ i, mi.nrBanks ≤ i → mi.bank i = ⟨0, 0, false⟩

/-- Banks that do not wrap and are disjoint, in any order. -/
structure Apart (l : List Membank) : Prop where
  /-- None wraps. -/
  fits : ∀ b ∈ l, b.start + b.size < 2 ^ 32
  /-- One of two ends before the other starts. -/
  disjoint : l.Pairwise fun a b => a.start + a.size ≤ b.start ∨ b.start + b.size ≤ a.start

variable {mi : Meminfo} {l : List Membank} {depth pgd : ℕ} {m : Memblock}

/-- Rounding a word of any length down to a page. -/
theorem alignDown_dvd (x : ℕ) : 4096 ∣ alignDown 32 x 4096 := by
  have hword : alignDown 32 x 4096 = alignDown 32 (x % 2 ^ 32) 4096 := by
    have hmod : BitVec.ofNat 32 (x % 2 ^ 32) = BitVec.ofNat 32 x :=
      BitVec.eq_of_toNat_eq (by rw [BitVec.toNat_ofNat, BitVec.toNat_ofNat, Nat.mod_mod])
    rw [alignDown, alignDown, hmod]
  rw [hword]
  exact (@alignDown_spec 32 _ 12 (Nat.mod_lt x (by decide)) (by decide)).2.2

/-- An accepted range becomes a bank of whole pages. -/
theorem accept_bank {range : ℕ × ℕ} {mi' : Meminfo} (haccept : accept mi range = some mi') :
    mi.nrBanks < maxBanks ∧
      ∃ b, Whole b ∧ mi' = ⟨mi.nrBanks + 1, Function.update mi.bank mi.nrBanks b⟩ := by
  have hzero : (armAddMemory range.1 range.2 mi).1 = 0 := by
    by_contra hne
    rw [accept, if_neg hne] at haccept
    cases haccept
  rw [accept, if_pos hzero, Option.some.injEq] at haccept
  by_cases hfull : maxBanks ≤ mi.nrBanks
  · rw [armAddMemory, if_pos hfull] at hzero
    exact absurd (show (-12 : ℤ) = 0 from hzero) (by decide)
  · rw [armAddMemory, if_neg hfull] at hzero haccept
    by_cases hempty : alignDown 32 (wrapSub 64 range.2 (range.1 &&& 0xFFF)) 4096 = 0
    · simp only [hempty, if_true] at hzero
      exact absurd (show (-12 : ℤ) = 0 from hzero) (by decide)
    · simp only [hempty, if_false] at haccept
      exact ⟨by omega, _, ⟨alignDown_dvd _, alignDown_dvd _, Nat.pos_of_ne_zero hempty,
        alignDown_lt _ _ _⟩, haccept.symm⟩

/-- Ranges that are all accepted become banks of whole pages. -/
theorem exec_recorded {ranges : List (ℕ × ℕ)} (haccept : exec accept emptyMeminfo ranges = some mi) :
    Recorded mi := by
  have hempty : Recorded emptyMeminfo :=
    ⟨by decide, fun i hi => absurd hi (Nat.not_lt_zero i), fun _ _ => rfl⟩
  refine @exec_invariant _ _ _ Recorded (fun mi range mi' h hstep => ?_) _ _ _ hempty haccept
  obtain ⟨hlt, b, hwhole, rfl⟩ := accept_bank hstep
  refine ⟨hlt, fun i hi => ?_, fun i hi => ?_⟩
  · dsimp only
    rcases Nat.lt_succ_iff_lt_or_eq.mp hi with hbelow | rfl
    · rw [Function.update_of_ne hbelow.ne]
      exact h.whole i hbelow
    · rw [Function.update_self]
      exact hwhole
  · have hnext : mi.nrBanks + 1 ≤ i := hi
    dsimp only
    rw [Function.update_of_ne (by omega)]
    exact h.behind i (by omega)

/-- The entries are words. -/
theorem Recorded.bounded (h : Recorded mi) : Bounded mi.bank := by
  intro i
  rcases lt_or_ge i mi.nrBanks with hlt | hge
  · exact (h.whole i hlt).start_lt
  · rw [h.behind i hge]
    exact Nat.two_pow_pos 32

/-- A bank in use is an entry of the array. -/
theorem mem_banks {b : Membank} : b ∈ mi.banks ↔ ∃ i < mi.nrBanks, mi.bank i = b := by
  rw [Meminfo.banks, window, List.mem_map]
  simp only [List.mem_range, Nat.zero_add]

/-- The banks in use have whole pages. -/
theorem Recorded.mem_whole (h : Recorded mi) : ∀ b ∈ mi.banks, Whole b := by
  intro b hb
  obtain ⟨i, hi, rfl⟩ := mem_banks.mp hb
  exact h.whole i hi

/-- A bank that shares no byte with the memory table is added to it. -/
theorem memblockAdd_spec {b : Membank} (hs : Spaced 1 m.memory) (hcnt : 0 < m.memory.cnt)
    (hroom : m.memory.cnt + 1 < m.memory.max) (hpos : 0 < b.size) (hfits : b.start + b.size < 2 ^ 32)
    (hnew : Disjoint (bytes m.memory) (Set.Ico b.start (b.start + b.size))) :
    ∃ m', memblockAdd depth m b = some m' ∧
      Becomes 1 m.memory m'.memory (bytes m.memory ∪ Set.Ico b.start (b.start + b.size)) ∧
      m'.reserved = m.reserved := by
  by_cases hd : IsDummy m.memory
  · have hadd := @addRegion_dummy (memblockDoubleArray depth) .memory m b.start b.size hd
    refine ⟨m.setTable .memory (m.memory.setRegion 0 ⟨b.start, b.size⟩), ?_, ?_, rfl⟩
    · rw [memblockAdd, memblockAddRegion, hadd]
      rfl
    · rw [bytes_dummy hd, Set.empty_union]
      exact setRegion_dummy hs hd b.start b.size 1 hfits
  · obtain ⟨ret, t, -, hadd, hbecomes⟩ := @addRegion_clear (memblockDoubleArray depth) .memory m 1 b.start
      b.size m.memory rfl hs le_rfl hcnt hd hpos hfits (clear_of_disjoint hs hd hpos hnew) fun _ => hroom
    refine ⟨m.setTable .memory t, ?_, hbecomes, rfl⟩
    rw [memblockAdd, memblockAddRegion, hadd]
    rfl

/-- Banks in order are added to the memory table one by one. -/
theorem exec_memblockAdd (hs : Spaced 1 m.memory) (hcnt : 0 < m.memory.cnt)
    (hroom : m.memory.cnt + l.length < m.memory.max) (hpos : ∀ b ∈ l, 0 < b.size)
    (hfits : ∀ b ∈ l, b.start + b.size < 2 ^ 32)
    (hapart : l.Pairwise fun a b => a.start + a.size ≤ b.start)
    (hbelow : ∀ x ∈ bytes m.memory, ∀ b ∈ l, x < b.start) :
    ∃ m', exec (memblockAdd depth) m l = some m' ∧ Spaced 1 m'.memory ∧
      bytes m'.memory = bytes m.memory ∪ MeminfoLimit.bytes l ∧ m'.reserved = m.reserved := by
  induction l generalizing m with
  | nil =>
    refine ⟨m, rfl, hs, ?_, rfl⟩
    have hnone : MeminfoLimit.bytes [] = ∅ := by
      ext x
      simp only [MeminfoLimit.bytes, List.not_mem_nil, false_and, exists_false, Set.mem_ofPred_eq,
        Set.mem_empty_iff_false]
    rw [hnone, Set.union_empty]
  | cons b rest ih =>
    rw [List.length_cons] at hroom
    obtain ⟨hfirst, hrest⟩ := List.pairwise_cons.mp hapart
    have hnew : Disjoint (bytes m.memory) (Set.Ico b.start (b.start + b.size)) :=
      Set.disjoint_left.mpr fun x hx hin =>
        absurd hin.1 (not_le.mpr (hbelow x hx b List.mem_cons_self))
    obtain ⟨m', hadd, hbecomes, hreserved⟩ := @memblockAdd_spec depth m b hs hcnt (by omega)
      (hpos b List.mem_cons_self) (hfits b List.mem_cons_self) hnew
    have hstored : b.start ∈ bytes m'.memory := by
      rw [hbecomes.bytes_eq]
      exact .inr ⟨le_rfl, Nat.lt_add_of_pos_right (hpos b List.mem_cons_self)⟩
    have hcnt' : 0 < m'.memory.cnt := by
      obtain ⟨i, hi, -⟩ := hstored
      omega
    have hle := hbecomes.cnt_le
    have hmax := hbecomes.max_eq
    obtain ⟨m'', hrun, hspaced, hbytes, hkept⟩ := ih hbecomes.spaced hcnt' (by omega)
      (fun a ha => hpos a (List.mem_cons_of_mem b ha)) (fun a ha => hfits a (List.mem_cons_of_mem b ha))
      hrest fun x hx a ha => by
        rw [hbecomes.bytes_eq] at hx
        rcases hx with hx | hx
        · exact hbelow x hx a (List.mem_cons_of_mem b ha)
        · exact hx.2.trans_le (hfirst a ha)
    refine ⟨m'', by rw [exec, hadd, Option.bind_some, hrun], hspaced, ?_, hkept.trans hreserved⟩
    rw [hbytes, hbecomes.bytes_eq, Set.union_assoc]
    congr 1
    ext x
    simp only [MeminfoLimit.bytes, Set.mem_union, Set.mem_Ico, Set.mem_ofPred_eq, List.mem_cons,
      exists_eq_or_imp]

/-- Disjoint banks of whole pages in the order of their pages end before the next ones start. -/
theorem Apart.sorted (hapart : Apart l) (hwhole : ∀ b ∈ l, Whole b) (hsorted : l.Pairwise Earlier) :
    l.Pairwise fun a b => a.start + a.size ≤ b.start := by
  refine (hapart.disjoint.and hsorted).imp_of_mem fun {a b} ha hb hab => ?_
  obtain ⟨hdisjoint, hearlier⟩ := hab
  have hpage : ∀ x : ℕ, x >>> 12 = x / 4096 := fun x => Nat.shiftRight_eq_div_pow x 12
  rw [Earlier, bankPfnStart, bankPfnStart, hpage, hpage] at hearlier
  obtain ⟨p, hp⟩ := (hwhole a ha).start_dvd
  obtain ⟨q, hq⟩ := (hwhole b hb).start_dvd
  have hpos := (hwhole b hb).pos
  omega

/-- The same banks in another order. -/
theorem Apart.perm {l' : List Membank} (hapart : Apart l) (hperm : l'.Perm l) : Apart l' :=
  ⟨fun b hb => hapart.fits b (hperm.subset hb),
    (hperm.pairwise_iff fun h => h.symm).mpr hapart.disjoint⟩

/-- The bytes of banks in another order. -/
theorem bytes_perm {l' : List Membank} (hperm : l'.Perm l) :
    MeminfoLimit.bytes l' = MeminfoLimit.bytes l := by
  ext x
  simp only [MeminfoLimit.bytes, Set.mem_ofPred_eq, hperm.mem_iff]

/-- What `arm_memblock_init` is to make of some banks. -/
structure Initialised (mi mi' : Meminfo) (m : Memblock) : Prop where
  /-- There are as many banks. -/
  count : mi'.nrBanks = mi.nrBanks
  /-- They are the same ones. -/
  perm : mi'.banks.Perm mi.banks
  /-- They are sorted. -/
  sorted : mi'.banks.Pairwise fun a b => a.start + a.size ≤ b.start
  /-- The memory table is well formed. -/
  spaced : Spaced 1 m.memory
  /-- It has their bytes. -/
  bytes_eq : bytes m.memory = MeminfoLimit.bytes mi.banks
  /-- It is the initial one without banks. -/
  initial : mi.nrBanks = 0 → m.memory = staticTable

/-- Recorded banks fill the memory table, when each one comes to rest inside while they are sorted. -/
theorem armMemblockInit_initialised (depth pgd : ℕ) (h : Recorded mi) (hapart : Apart mi.banks)
    (hrests : RestsInside mi.bank mi.nrBanks (mi.nrBanks / 2)) :
    ∃ mi' m, armMemblockInit depth pgd mi = some (mi', m) ∧ Initialised mi mi' m := by
  obtain ⟨bank, hsort, hperm, hearlier⟩ := sortBanks_sorted h.bounded h.count hrests
  have hwindow : ∀ m : ℕ → Membank, window m 0 mi.nrBanks = (List.range mi.nrBanks).map m := fun m =>
    List.map_congr_left fun k _ => by rw [Nat.zero_add]
  rw [← hwindow, ← hwindow] at hperm
  rw [← hwindow] at hearlier
  have hapart' : Apart (window bank 0 mi.nrBanks) := hapart.perm hperm
  have hwhole : ∀ b ∈ window bank 0 mi.nrBanks, Whole b := fun b hb => h.mem_whole b (hperm.subset hb)
  have hsorted := hapart'.sorted hwhole hearlier
  have hmax : maxBanks = 8 := rfl
  have hcount := h.count
  have hlength : (window bank 0 mi.nrBanks).length = mi.nrBanks := window_length _ _ _
  obtain ⟨hspaced, hnone⟩ := memblockInit_table .memory
  have hempty : bytes memblockInit.memory = ∅ := hnone
  have hcnt : memblockInit.memory.cnt = 1 := rfl
  have hroom : memblockInit.memory.max = 128 := rfl
  obtain ⟨m, hrun, hs, hbytes, hreserved⟩ := @exec_memblockAdd (window bank 0 mi.nrBanks) depth
    memblockInit hspaced (by omega) (by omega) (fun b hb => (hwhole b hb).pos) hapart'.fits hsorted
    fun x hx => by
      rw [hempty] at hx
      exact absurd hx (Set.notMem_empty x)
  have hdummy : IsDummy (m.table .reserved) := by
    have htable : m.table .reserved = staticTable := hreserved
    rw [htable]
    exact ⟨rfl, by decide⟩
  refine ⟨⟨mi.nrBanks, bank⟩,
    m.setTable .reserved ((m.table .reserved).setRegion 0 ⟨pgd, 16384⟩), ?_,
    ⟨rfl, hperm, hsorted, hs, ?_, fun hzero => ?_⟩⟩
  · rw [armMemblockInit, hsort, Option.bind_some, hrun, Option.bind_some, memblockAddRegion,
      addRegion_dummy hdummy, Option.map_some]
  · have hunion : bytes m.memory = MeminfoLimit.bytes (window bank 0 mi.nrBanks) := by
      rw [hbytes, hempty, Set.empty_union]
    exact hunion.trans (bytes_perm hperm)
  · rw [hzero, window_zero, exec, Option.some.injEq] at hrun
    rw [← hrun]
    rfl

/-- It has no result otherwise. -/
theorem armMemblockInit_escapes (depth pgd : ℕ) (h : Recorded mi)
    (hrests : ¬RestsInside mi.bank mi.nrBanks (mi.nrBanks / 2)) : armMemblockInit depth pgd mi = none := by
  have hzero : ∀ i, mi.nrBanks ≤ i → bankPfnStart (mi.bank i) = 0 := by
    intro i hi
    rw [h.behind i hi]
    rfl
  rw [armMemblockInit, sortBanks_escapes h.bounded h.count hzero hrests, Option.bind_none]

end BiscuitOS.BootMemory
