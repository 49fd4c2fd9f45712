import BiscuitOS.VwriteModel
import BiscuitOS.VreadContract

/-!
# What a write to the vmalloc space stores

Each byte of an area that is stored lies where the copy of its page puts it,
and the bytes left are counted up in a hole and down in an area. The stores
are those of the range exactly where the copies go to the bytes mapped, and
where the count runs out between the mapped bytes of the range and those
behind it.
-/

namespace BiscuitOS.VwriteContract

open MachineWord MmuModel VmapTables PcpuVmModel VreadModel VreadContract VwriteModel

/-- The memory after stores. -/
def writeStores (buf : ℕ → ℕ) (m : Memory) (stores : List (ℕ × ℕ)) : Memory :=
  { m with tables := applyStores buf m.tables stores }

/-- The physical address of a byte that is mapped in an area that is written. -/
def place (m : Memory) (vmlist : List VmStruct) (v : ℕ) : Option ℕ :=
  match areaAt vmlist v with
  | none => none
  | some a =>
    if a.flags &&& vmIoremap = 0 then
      (vmallocToPage m.tables v).map fun page => page * 4096 + v % 4096
    else none

/-- The bytes of the buffer up to a place that belong to mapped bytes, with their addresses. -/
def expectedStores (m : Memory) (vmlist : List VmStruct) (addr n : ℕ) : List (ℕ × ℕ) :=
  (List.range n).filterMap fun k => (place m vmlist (addr + k)).map fun p => (p, k)

/-- The pages of the areas hold neither the page tables of the areas nor that of the slots. -/
structure NotTables (m : Memory) (vmlist : List VmStruct) : Prop where
  /-- The tables of the areas. -/
  areas : ∀ v p, place m vmlist v = some p → ∀ w, (areaAt vmlist w).isSome →
    p / 4096 ≠ pmdPage m.tables (pgdOffsetK w)
  /-- The table of the slots. -/
  slots : ∀ v p, place m vmlist v = some p → p / 4096 ≠ pmdPage m.tables (pgdOffsetK 0xffff0000)

/-- Stores leave the page directory. -/
theorem applyStores_pmd (buf : ℕ → ℕ) (t : KernelTables) (stores : List (ℕ × ℕ)) :
    (applyStores buf t stores).pmd = t.pmd := by
  induction stores generalizing t with
  | nil => rfl
  | cons s rest ih =>
    rw [applyStores, List.foldl_cons, ← applyStores, ih, storeByte]

/-- Stores to other pages leave a page. -/
theorem applyStores_words (buf : ℕ → ℕ) {t : KernelTables} {stores : List (ℕ × ℕ)} {frame : ℕ}
    (h : ∀ s ∈ stores, s.1 / 4096 ≠ frame) :
    (applyStores buf t stores).words frame = t.words frame := by
  induction stores generalizing t with
  | nil => rfl
  | cons s rest ih =>
    have hne : frame ≠ s.1 / 4096 := (h s List.mem_cons_self).symm
    rw [applyStores, List.foldl_cons, ← applyStores, ih fun r hr => h r (List.mem_cons_of_mem _ hr)]
    exact Function.update_of_ne hne _ _

/-- The stores of two lists. -/
theorem applyStores_append (buf : ℕ → ℕ) (t : KernelTables) (first second : List (ℕ × ℕ)) :
    applyStores buf t (first ++ second) = applyStores buf (applyStores buf t first) second :=
  List.foldl_append

/-- A store and an entry of another page do not meet. -/
theorem storeByte_setPteExt {t : KernelTables} {p frame : ℕ} (h : p / 4096 ≠ frame)
    (byte entry val : ℕ) :
    storeByte (setPteExt t frame entry val) p byte =
      setPteExt (storeByte t p byte) frame entry val := by
  simp only [storeByte, setPteExt, Function.update_of_ne h, Function.update_of_ne h.symm,
    Function.update_comm h]

/-- Stores and an entry of another page do not meet. -/
theorem applyStores_setPteExt (buf : ℕ → ℕ) {t : KernelTables} {stores : List (ℕ × ℕ)} {frame : ℕ}
    (h : ∀ s ∈ stores, s.1 / 4096 ≠ frame) (entry val : ℕ) :
    applyStores buf (setPteExt t frame entry val) stores =
      setPteExt (applyStores buf t stores) frame entry val := by
  induction stores generalizing t with
  | nil => rfl
  | cons s rest ih =>
    simp only [applyStores, List.foldl_cons]
    rw [storeByte_setPteExt (h s List.mem_cons_self), ← applyStores, ← applyStores,
      ih fun r hr => h r (List.mem_cons_of_mem _ hr)]

/-- The page of an address whose table is not stored to. -/
theorem vmallocToPage_applyStores (buf : ℕ → ℕ) {t : KernelTables} {stores : List (ℕ × ℕ)} {v : ℕ}
    (h : ∀ s ∈ stores, s.1 / 4096 ≠ pmdPage t (pgdOffsetK v)) :
    vmallocToPage (applyStores buf t stores) v = vmallocToPage t v := by
  have hpage : pmdPage (applyStores buf t stores) (pgdOffsetK v) = pmdPage t (pgdOffsetK v) := by
    rw [pmdPage, pmdPage, applyStores_pmd]
  rw [vmallocToPage, vmallocToPage, hpage, applyStores_pmd, applyStores_words buf h]

/-- Stores outside the table of the slots leave the slots unused. -/
theorem writeStores_unused (buf : ℕ → ℕ) {m : Memory} (hs : SlotUnused m)
    {stores : List (ℕ × ℕ)}
    (h : ∀ s ∈ stores, s.1 / 4096 ≠ pmdPage m.tables (pgdOffsetK 0xffff0000)) :
    SlotUnused (writeStores buf m stores) := by
  constructor
  · have hpage : pmdPage (applyStores buf m.tables stores) (pgdOffsetK 0xffff0000) =
        pmdPage m.tables (pgdOffsetK 0xffff0000) := by
      rw [pmdPage, pmdPage, applyStores_pmd]
    have hempty := hs.empty
    simp only [topPte, writeStores, kmapSlot, hpage, applyStores_words buf h] at hempty ⊢
    exact hempty
  · exact hs.low

/-- A page is entered in the same way before and after stores. -/
theorem kmapAtomic_writeStores (buf : ℕ → ℕ) {m : Memory} {stores : List (ℕ × ℕ)}
    (h : ∀ s ∈ stores, s.1 / 4096 ≠ pmdPage m.tables (pgdOffsetK 0xffff0000)) (page : ℕ) :
    kmapAtomic (writeStores buf m stores) page =
      ((kmapAtomic m page).1, writeStores buf (kmapAtomic m page).2 stores) := by
  have hpage : pmdPage (applyStores buf m.tables stores) (pgdOffsetK 0xffff0000) =
      pmdPage m.tables (pgdOffsetK 0xffff0000) := by
    rw [pmdPage, pmdPage, applyStores_pmd]
  have hslot : kmapSlot (writeStores buf m stores) = kmapSlot m := rfl
  have hget : (if (writeStores buf m stores).vivt then kmapHighGet (writeStores buf m stores) page
      else none) = if m.vivt then kmapHighGet m page else none := rfl
  by_cases hlow : m.highMem page = false
  · have hlow' : (writeStores buf m stores).highMem page = false := hlow
    rw [kmapAtomic, if_pos hlow', kmapAtomic, if_pos hlow]
  · have hhigh : ¬(writeStores buf m stores).highMem page = false := hlow
    rw [kmapAtomic, if_neg hhigh, kmapAtomic, if_neg hlow, hget]
    cases (if m.vivt = true then kmapHighGet m page else none) with
    | some kmap => rfl
    | none =>
      simp only [topPte, hslot]
      simp only [writeStores, hpage, applyStores_setPteExt buf h]

/-- A copy to a page that is entered, and left behind it, is the copy alone. -/
theorem kunmap_memcpy (buf : ℕ → ℕ) {m : Memory} (hs : SlotUnused m) {page dst pos length : ℕ}
    (h : ∀ s ∈ copyStores dst pos length,
      s.1 / 4096 ≠ pmdPage m.tables (pgdOffsetK 0xffff0000)) :
    kunmapAtomic (memcpyFrom buf (kmapAtomic m page).2 dst pos length) (kmapAtomic m page).1 =
      writeStores buf m (copyStores dst pos length) := by
  have hback := kunmap_kmap (writeStores_unused buf hs h) page
  rw [kmapAtomic_writeStores buf h page] at hback
  exact hback

/-- How many of the first addresses are in the live part of an area. -/
def covered (vmlist : List VmStruct) (addr n : ℕ) : ℕ :=
  (List.range n).countP fun j => (areaAt vmlist (addr + j)).isSome

/-- The count is zero after so many addresses: those in an area are counted down, those in a hole
up, and it has 64 bits. -/
def Spent (vmlist : List VmStruct) (addr count n : ℕ) : Prop :=
  (2 ^ 64 : ℤ) ∣ count + n - 2 * covered vmlist addr n

instance (vmlist : List VmStruct) (addr count n : ℕ) : Decidable (Spent vmlist addr count n) :=
  inferInstanceAs (Decidable (_ ∣ _))

/-- The count is zero neither there nor before. -/
def Reached (vmlist : List VmStruct) (addr count n : ℕ) : Prop :=
  ∀ j < n + 1, ¬Spent vmlist addr count j

instance (vmlist : List VmStruct) (addr count n : ℕ) : Decidable (Reached vmlist addr count n) :=
  inferInstanceAs (Decidable (∀ j < n + 1, _))

/-- The count is zero neither at the start nor in the hole before an area that ends behind the
start. -/
def Entered (vmlist : List VmStruct) (addr count : ℕ) (a : VmStruct) : Prop :=
  addr < liveEnd a ∧ ∀ j < max 1 (a.addr - addr), ¬Spent vmlist addr count j

instance (vmlist : List VmStruct) (addr count : ℕ) (a : VmStruct) :
    Decidable (Entered vmlist addr count a) :=
  inferInstanceAs (Decidable (_ ∧ ∀ j < max 1 (a.addr - addr), _))

section Counts

variable {vmlist : List VmStruct} {addr count : ℕ}

/-- One more address in an area. -/
theorem covered_area {n : ℕ} (h : (areaAt vmlist (addr + n)).isSome) :
    covered vmlist addr (n + 1) = covered vmlist addr n + 1 := by
  rw [covered, covered, List.range_succ, List.countP_append, List.countP_singleton, if_pos h]

/-- One more address in a hole. -/
theorem covered_hole {n : ℕ} (h : areaAt vmlist (addr + n) = none) :
    covered vmlist addr (n + 1) = covered vmlist addr n := by
  have hno : ¬(areaAt vmlist (addr + n)).isSome = true := by
    rw [h]
    exact Bool.false_ne_true
  rw [covered, covered, List.range_succ, List.countP_append, List.countP_singleton, if_neg hno]
  rfl

/-- Some more addresses in an area. -/
theorem covered_areas {n i : ℕ} (h : ∀ j < i, (areaAt vmlist (addr + (n + j))).isSome) :
    covered vmlist addr (n + i) = covered vmlist addr n + i := by
  induction i with
  | zero => rfl
  | succ i ih =>
    have hlast := covered_area (h i (Nat.lt_succ_self i))
    have hbefore := ih fun j hj => h j (Nat.lt_succ_of_lt hj)
    rw [← Nat.add_assoc, hlast, hbefore, Nat.add_assoc]

/-- The count that is left after some addresses, none of them passed with a zero count. -/
structure Counting (vmlist : List VmStruct) (addr count n left : ℕ) : Prop where
  /-- It is a word. -/
  lt : left < 2 ^ 64
  /-- What was counted. -/
  dvd : (2 ^ 64 : ℤ) ∣ count + n - 2 * covered vmlist addr n - left
  /-- It was not zero before. -/
  passed : ∀ j < n, ¬Spent vmlist addr count j

/-- Nothing is counted at the start. -/
theorem Counting.start (h : count < 2 ^ 64) : Counting vmlist addr count 0 count := by
  have hzero : covered vmlist addr 0 = 0 := rfl
  refine ⟨h, ?_, fun j hj => absurd hj (Nat.not_lt_zero j)⟩
  rw [hzero]
  omega

/-- A count is zero where it is spent. -/
theorem Counting.spent_iff {n left : ℕ} (h : Counting vmlist addr count n left) :
    Spent vmlist addr count n ↔ left = 0 := by
  have hlt := h.lt
  have hdvd := h.dvd
  rw [Spent]
  omega

/-- With bytes left the address is reached. -/
theorem Counting.reached {n left : ℕ} (h : Counting vmlist addr count n left) (hleft : left ≠ 0) :
    Reached vmlist addr count n := by
  intro j hj
  rcases Nat.lt_succ_iff_lt_or_eq.mp hj with hlt | heq
  · exact h.passed j hlt
  · rw [heq, h.spent_iff]
    exact hleft

/-- One address of a hole. -/
theorem Counting.hole {n left : ℕ} (h : Counting vmlist addr count n left) (hleft : left ≠ 0)
    (hnone : areaAt vmlist (addr + n) = none) :
    Counting vmlist addr count (n + 1) (wrap 64 (left + 1)) := by
  have hlt := h.lt
  have hdvd := h.dvd
  refine ⟨Nat.mod_lt _ (by decide), ?_, h.reached hleft⟩
  rw [covered_hole hnone, wrap]
  omega

/-- Some addresses of an area, not more than are left. -/
theorem Counting.areas {n left i : ℕ} (h : Counting vmlist addr count n left) (hi : i ≤ left)
    (hsome : ∀ j < i, (areaAt vmlist (addr + (n + j))).isSome) :
    Counting vmlist addr count (n + i) (left - i) := by
  have hlt := h.lt
  have hdvd := h.dvd
  refine ⟨by omega, ?_, fun j hj => ?_⟩
  · rw [covered_areas hsome]
    omega
  · by_cases hbefore : j < n
    · exact h.passed j hbefore
    · have hsum : n + (j - n) = j := by omega
      have hcov := covered_areas (i := j - n) fun k hk => hsome k (by omega)
      rw [Spent, ← hsum, hcov]
      omega

end Counts

variable {m : Memory} {vmlist : List VmStruct} {buf : ℕ → ℕ} {addr count : ℕ} {c : WriteCursor}

/-- The stores of one more address. -/
theorem expectedStores_succ (m : Memory) (vmlist : List VmStruct) (addr n : ℕ) :
    expectedStores m vmlist addr (n + 1) =
      expectedStores m vmlist addr n ++
        ((place m vmlist (addr + n)).map fun p => (p, n)).toList := by
  rw [expectedStores, expectedStores, List.range_succ, List.filterMap_append]
  congr 1

/-- Addresses that are not mapped have no stores. -/
theorem expectedStores_none {n length : ℕ} (h : ∀ i < length, place m vmlist (addr + (n + i)) = none) :
    expectedStores m vmlist addr (n + length) = expectedStores m vmlist addr n := by
  induction length with
  | zero => rfl
  | succ i ih =>
    have hlast := h i (Nat.lt_succ_self i)
    have hbefore := ih fun j hj => h j (Nat.lt_succ_of_lt hj)
    rw [← Nat.add_assoc, expectedStores_succ, hlast, hbefore, Option.map_none, Option.toList_none,
      List.append_nil]

/-- Addresses mapped one behind another have the stores of a copy. -/
theorem expectedStores_copy {n length p : ℕ}
    (h : ∀ i < length, place m vmlist (addr + (n + i)) = some (p + i)) :
    expectedStores m vmlist addr (n + length) =
      expectedStores m vmlist addr n ++ copyStores p n length := by
  induction length with
  | zero => exact (List.append_nil _).symm
  | succ i ih =>
    have hlast := h i (Nat.lt_succ_self i)
    have hbefore := ih fun j hj => h j (Nat.lt_succ_of_lt hj)
    rw [← Nat.add_assoc, expectedStores_succ, hlast, hbefore, copyStores, copyStores,
      List.range_succ, List.map_append, List.append_assoc]
    rfl

/-- The bytes that are stored up to a place. -/
theorem mem_expectedStores {n p k : ℕ} :
    (p, k) ∈ expectedStores m vmlist addr n ↔ k < n ∧ place m vmlist (addr + k) = some p := by
  simp only [expectedStores, List.mem_filterMap, List.mem_range, Option.map_eq_some_iff,
    Prod.mk.injEq]
  constructor
  · intro h
    obtain ⟨j, hj, q, hq, hqp, hjk⟩ := h
    rw [← hjk, ← hqp]
    exact ⟨hj, hq⟩
  · intro h
    exact ⟨k, h.1, p, h.2, rfl, rfl⟩

/-- The place of an address of an area. -/
theorem place_area (h : Areas vmlist) {a : VmStruct} (ha : a ∈ vmlist) {v : ℕ} (hlo : a.addr ≤ v)
    (hhi : v < liveEnd a) :
    place m vmlist v =
      if a.flags &&& vmIoremap = 0 then
        (vmallocToPage m.tables v).map fun page => page * 4096 + v % 4096
      else none := by
  rw [place, h.areaAt_eq ha hlo hhi]

/-- The page at the start of a copy is mapped, and the copy goes elsewhere. -/
def Misaimed (m : Memory) (vmlist : List VmStruct) (buf : ℕ → ℕ) (addr k : ℕ) : Prop :=
  ∃ a page, areaAt vmlist (addr + k) = some a ∧ a.flags &&& vmIoremap = 0 ∧
    vmallocToPage m.tables (addr + k) = some page ∧ addr + k = copyStart addr a (addr + k) ∧
    copySource (writeStores buf m (expectedStores m vmlist addr k)) page ((addr + k) % 4096) ≠
      page * 4096 + (addr + k) % 4096

/-- The bytes passed are stored where they are mapped. -/
structure Placed (m : Memory) (vmlist : List VmStruct) (buf : ℕ → ℕ) (addr : ℕ)
    (c : WriteCursor) : Prop where
  /-- The address. -/
  addr_eq : c.addr = addr + c.pos
  /-- The stores. -/
  stores_eq : c.stores = expectedStores m vmlist addr c.pos
  /-- The memory has these stores. -/
  mem_eq : c.mem = writeStores buf m c.stores
  /-- No copy went elsewhere. -/
  aimed : ∀ k < c.pos, ¬Misaimed m vmlist buf addr k

/-- A byte was stored where it is not mapped, by a copy from an address that is reached. -/
def Astray (m : Memory) (vmlist : List VmStruct) (buf : ℕ → ℕ) (addr count : ℕ)
    (c : WriteCursor) : Prop :=
  (∃ s ∈ c.stores, place m vmlist (addr + s.2) ≠ some s.1) ∧
    ∃ k, Reached vmlist addr count k ∧ Misaimed m vmlist buf addr k

/-- A byte stored remains so. -/
theorem Astray.of_subset {d : WriteCursor} (h : Astray m vmlist buf addr count c)
    (hsub : c.stores ⊆ d.stores) : Astray m vmlist buf addr count d := by
  obtain ⟨⟨s, hs, hne⟩, hfault⟩ := h
  exact ⟨⟨s, hsub hs, hne⟩, hfault⟩

/-- Stores that are expected lie outside the tables. -/
theorem NotTables.slots_of_mem (hn : NotTables m vmlist) {n : ℕ} {s : ℕ × ℕ}
    (hs : s ∈ expectedStores m vmlist addr n) :
    s.1 / 4096 ≠ pmdPage m.tables (pgdOffsetK 0xffff0000) :=
  hn.slots _ _ (mem_expectedStores.mp hs).2

/-- The page of an area is the one before the stores. -/
theorem Placed.page (hc : Placed m vmlist buf addr c) (hn : NotTables m vmlist) {v : ℕ}
    (hv : (areaAt vmlist v).isSome) : vmallocToPage c.mem.tables v = vmallocToPage m.tables v := by
  have hmem := hc.mem_eq
  have hstores := hc.stores_eq
  rw [hmem, hstores]
  exact vmallocToPage_applyStores buf fun s hs =>
    hn.areas _ _ (mem_expectedStores.mp hs).2 v hv

/-- What a round of a copy advances. -/
theorem alignedRound_advance (buf : ℕ → ℕ) (c : WriteCursor) :
    (alignedRound buf c).pos = c.pos + min (4096 - c.addr % 4096) c.count ∧
      (alignedRound buf c).addr = c.addr + min (4096 - c.addr % 4096) c.count ∧
      (alignedRound buf c).count = c.count - min (4096 - c.addr % 4096) c.count ∧
      (alignedRound buf c).copied = c.copied ∧ c.stores ⊆ (alignedRound buf c).stores := by
  rw [VwriteModel.alignedRound]
  cases vmallocToPage c.mem.tables c.addr with
  | none => exact ⟨rfl, rfl, rfl, rfl, List.Subset.refl _⟩
  | some page => exact ⟨rfl, rfl, rfl, rfl, List.subset_append_left _ _⟩

/-- No copy starts within the rest of a page that is copied. -/
theorem not_misaimed_within (h : Areas vmlist) {a : VmStruct} (ha : a ∈ vmlist) {n length k : ℕ}
    (hlo : max addr a.addr ≤ addr + n) (hhi : addr + n + length ≤ liveEnd a)
    (hstart : addr + n = max addr a.addr ∨ 4096 ∣ addr + n)
    (hpage : length ≤ 4096 - (addr + n) % 4096) (hk : n < k) (hk' : k < n + length) :
    ¬Misaimed m vmlist buf addr k := by
  intro hmis
  obtain ⟨b, page, harea, _, _, hbegin, _⟩ := hmis
  have heq := h.areaAt_eq ha (v := addr + k) (by omega) (by omega)
  rw [heq] at harea
  cases harea
  have hcopy := copyStart_eq hlo hstart (show (addr + k) / 4096 = (addr + n) / 4096 by omega)
  omega

/-- A round places the rest of a page of an area, or goes astray. -/
theorem alignedRound_spec (hs : SlotUnused m) (h : Areas vmlist) (hn : NotTables m vmlist)
    {a : VmStruct} (ha : a ∈ vmlist) (hflags : a.flags &&& vmIoremap = 0)
    (hc : Placed m vmlist buf addr c) (hreach : Reached vmlist addr count c.pos)
    (hpos : c.count ≠ 0) (hlo : max addr a.addr ≤ c.addr) (hhi : c.addr + c.count ≤ liveEnd a)
    (hstart : c.addr = max addr a.addr ∨ 4096 ∣ c.addr) :
    Placed m vmlist buf addr (VwriteModel.alignedRound buf c) ∨
      Astray m vmlist buf addr count (VwriteModel.alignedRound buf c) := by
  have haddr := hc.addr_eq
  have harea := h.areaAt_eq ha (v := c.addr) (by omega) (by omega)
  have hsome : (areaAt vmlist c.addr).isSome := by
    rw [harea]
    rfl
  have hlookup := hc.page hn hsome
  generalize hlen : min (4096 - c.addr % 4096) c.count = length
  have hplace : ∀ i < length, place m vmlist (addr + (c.pos + i)) =
      (vmallocToPage m.tables c.addr).map fun page => page * 4096 + c.addr % 4096 + i := by
    intro i hi
    have hsame : (addr + (c.pos + i)) / 4096 = c.addr / 4096 := by omega
    have hoff : (addr + (c.pos + i)) % 4096 = c.addr % 4096 + i := by omega
    rw [place_area h ha (by omega) (by omega), if_pos hflags, vmallocToPage_same hsame, hoff]
    simp only [Nat.add_assoc]
  have hwithin : ∀ k, c.pos < k → k < c.pos + length → ¬Misaimed m vmlist buf addr k :=
    fun k hk hk' => @not_misaimed_within _ _ _ _ h _ ha c.pos length _ (by omega) (by omega)
      (by omega) (by omega) hk hk'
  have haimed : ¬Misaimed m vmlist buf addr c.pos →
      ∀ k < c.pos + length, ¬Misaimed m vmlist buf addr k := by
    intro hhere k hk
    rcases Nat.lt_trichotomy k c.pos with hlt | heq | hgt
    · exact hc.aimed k hlt
    · rw [heq]
      exact hhere
    · exact hwithin k hgt hk
  rw [VwriteModel.alignedRound, hlookup]
  cases hpage : vmallocToPage m.tables c.addr with
  | none =>
    rw [hpage] at hplace
    have hhere : ¬Misaimed m vmlist buf addr c.pos := by
      intro hmis
      obtain ⟨b, page, _, _, hmapped, _⟩ := hmis
      rw [← haddr, hpage] at hmapped
      cases hmapped
    refine .inl ⟨by simp only [haddr, Nat.add_assoc], ?_, hc.mem_eq, ?_⟩
    · simp only [hlen]
      rw [expectedStores_none hplace]
      exact hc.stores_eq
    · simp only [hlen]
      exact haimed hhere
  | some page =>
    rw [hpage] at hplace
    simp only [Option.map_some] at hplace
    have hmem : c.mem = writeStores buf m (expectedStores m vmlist addr c.pos) := by
      rw [hc.mem_eq, hc.stores_eq]
    simp only [hlen]
    by_cases haim : copySource c.mem page (c.addr % 4096) = page * 4096 + c.addr % 4096
    · left
      have hhere : ¬Misaimed m vmlist buf addr c.pos := by
        intro hmis
        obtain ⟨b, q, _, _, hmapped, _, hne⟩ := hmis
        rw [← haddr, hpage] at hmapped
        cases hmapped
        rw [← hmem, ← haddr] at hne
        exact hne haim
      have hstores : c.stores ++ copyStores (page * 4096 + c.addr % 4096) c.pos length =
          expectedStores m vmlist addr (c.pos + length) := by
        rw [hc.stores_eq, expectedStores_copy hplace]
      have hoff : ∀ s ∈ copyStores (page * 4096 + c.addr % 4096) c.pos length,
          s.1 / 4096 ≠ pmdPage m.tables (pgdOffsetK 0xffff0000) := by
        intro s hin
        have hmem' : s ∈ expectedStores m vmlist addr (c.pos + length) := by
          rw [← hstores]
          exact List.mem_append_right _ hin
        exact hn.slots_of_mem hmem'
      have hslots : ∀ s ∈ expectedStores m vmlist addr c.pos,
          s.1 / 4096 ≠ pmdPage m.tables (pgdOffsetK 0xffff0000) := fun s hin => hn.slots_of_mem hin
      have hunused : SlotUnused c.mem := by
        rw [hmem]
        exact writeStores_unused buf hs hslots
      have htop : pmdPage c.mem.tables (pgdOffsetK 0xffff0000) =
          pmdPage m.tables (pgdOffsetK 0xffff0000) := by
        rw [hmem, pmdPage, pmdPage]
        simp only [writeStores, applyStores_pmd]
      have hcopy : kunmapAtomic (memcpyFrom buf (kmapAtomic c.mem page).2
          (page * 4096 + c.addr % 4096) c.pos length) (kmapAtomic c.mem page).1 =
          writeStores buf c.mem (copyStores (page * 4096 + c.addr % 4096) c.pos length) :=
        kunmap_memcpy buf hunused fun s hin => by
          rw [htop]
          exact hoff s hin
      rw [haim]
      refine ⟨by simp only [haddr, Nat.add_assoc], hstores, ?_, haimed hhere⟩
      simp only [hcopy]
      rw [hc.mem_eq]
      simp only [writeStores, applyStores_append]
    · right
      refine ⟨⟨(copySource c.mem page (c.addr % 4096), c.pos), ?_, ?_⟩, c.pos, hreach, a, page, ?_,
        hflags, ?_, ?_, ?_⟩
      · refine List.mem_append_right _ (List.mem_map.mpr ⟨0, List.mem_range.mpr (by omega), ?_⟩)
        simp only [Nat.add_zero]
      · have hfirst := hplace 0 (by omega)
        simp only [Nat.add_zero] at hfirst
        intro heq
        rw [hfirst] at heq
        exact haim (Option.some.inj heq).symm
      · rw [← haddr]
        exact harea
      · rw [← haddr]
        exact hpage
      · rw [← haddr, copyStart_eq hlo hstart rfl]
      · rw [← hmem, ← haddr]
        exact haim

/-- The rounds of a copy leave the number of areas written, and what is stored is not taken
back. -/
theorem alignedVwrite_advance (buf : ℕ → ℕ) (fuel : ℕ) (c : WriteCursor) :
    (alignedVwrite buf fuel c).copied = c.copied ∧ c.stores ⊆ (alignedVwrite buf fuel c).stores := by
  induction fuel generalizing c with
  | zero => exact ⟨rfl, List.Subset.refl _⟩
  | succ fuel ih =>
    rw [alignedVwrite]
    by_cases hzero : c.count = 0
    · rw [if_pos hzero]
      exact ⟨rfl, List.Subset.refl _⟩
    · rw [if_neg hzero]
      obtain ⟨hcopied, hsub⟩ := ih (VwriteModel.alignedRound buf c)
      obtain ⟨_, _, _, hround, hstores⟩ := alignedRound_advance buf c
      exact ⟨hcopied.trans hround, List.Subset.trans hstores hsub⟩

/-- `aligned_vwrite` places the part of an area page by page, or goes astray. -/
theorem alignedVwrite_spec (hs : SlotUnused m) (h : Areas vmlist) (hn : NotTables m vmlist)
    {a : VmStruct} (ha : a ∈ vmlist) (hflags : a.flags &&& vmIoremap = 0) (fuel : ℕ)
    (hc : Placed m vmlist buf addr c) (hfuel : c.count ≤ fuel)
    (hreach : ∀ i < c.count, Reached vmlist addr count (c.pos + i))
    (hlo : max addr a.addr ≤ c.addr) (hhi : c.addr + c.count ≤ liveEnd a)
    (hstart : c.count = 0 ∨ c.addr = max addr a.addr ∨ 4096 ∣ c.addr) :
    Placed m vmlist buf addr (alignedVwrite buf fuel c) ∧
        (alignedVwrite buf fuel c).pos = c.pos + c.count ∨
      Astray m vmlist buf addr count (alignedVwrite buf fuel c) := by
  induction fuel generalizing c with
  | zero => exact .inl ⟨hc, by rw [alignedVwrite]; omega⟩
  | succ fuel ih =>
    rw [alignedVwrite]
    by_cases hzero : c.count = 0
    · rw [if_pos hzero, hzero]
      exact .inl ⟨hc, rfl⟩
    · rw [if_neg hzero]
      have hbegin : c.addr = max addr a.addr ∨ 4096 ∣ c.addr := by omega
      have hround := alignedRound_spec hs h hn ha hflags hc (hreach 0 (by omega)) hzero hlo hhi
        hbegin
      obtain ⟨hpos, haddr, hcount, _, _⟩ := alignedRound_advance buf c
      generalize VwriteModel.alignedRound buf c = d at hround hpos haddr hcount ⊢
      rcases hround with hnext | hastray
      · have hrec := ih hnext (by omega)
          (fun i hi => by
            have hsum : d.pos + i = c.pos + (d.pos - c.pos + i) := by omega
            rw [hsum]
            exact hreach _ (by omega))
          (by omega) (by omega) (by omega)
        have hsum : d.pos + d.count = c.pos + c.count := by omega
        rwa [hsum] at hrec
      · exact .inr (hastray.of_subset (alignedVwrite_advance buf fuel d).2)

/-- A hole has no stores, and its loop ends where the area starts or the count is zero. -/
theorem skipHole_spec {vaddr : ℕ} (fuel : ℕ) (hc : Placed m vmlist buf addr c)
    (hcount : Counting vmlist addr count c.pos c.count)
    (hhole : ∀ v, c.addr ≤ v → v < vaddr → areaAt vmlist v = none) (hfuel : vaddr ≤ c.addr + fuel) :
    Placed m vmlist buf addr (skipHole vaddr fuel c).2 ∧
      Counting vmlist addr count (skipHole vaddr fuel c).2.pos (skipHole vaddr fuel c).2.count ∧
      (skipHole vaddr fuel c).2.copied = c.copied ∧
      ((skipHole vaddr fuel c).1 = true →
        (skipHole vaddr fuel c).2.count = 0 ∧ (skipHole vaddr fuel c).2.addr < vaddr) ∧
      ((skipHole vaddr fuel c).1 = false → (skipHole vaddr fuel c).2.addr = max c.addr vaddr) := by
  induction fuel generalizing c with
  | zero =>
    have haddr : c.addr = max c.addr vaddr := by omega
    exact ⟨hc, hcount, rfl, fun hf => Bool.noConfusion hf, fun _ => haddr⟩
  | succ fuel ih =>
    rw [skipHole]
    by_cases hlt : c.addr < vaddr
    · rw [if_pos hlt]
      by_cases hzero : c.count = 0
      · rw [if_pos hzero]
        exact ⟨hc, hcount, rfl, fun _ => ⟨hzero, hlt⟩, fun ht => Bool.noConfusion ht⟩
      · rw [if_neg hzero]
        have haddr := hc.addr_eq
        have hnone : areaAt vmlist (addr + c.pos) = none := by
          rw [← haddr]
          exact hhole c.addr le_rfl hlt
        have hplace : place m vmlist (addr + c.pos) = none := by
          rw [place, hnone]
        have hcount' := hcount.hole hzero hnone
        have hc' : Placed m vmlist buf addr
            { c with pos := c.pos + 1, addr := c.addr + 1, count := wrap 64 (c.count + 1) } := by
          refine ⟨by simp only [haddr, Nat.add_assoc], ?_, hc.mem_eq, fun k hk => ?_⟩
          · simp only
            rw [expectedStores_succ, hplace, Option.map_none, Option.toList_none, List.append_nil]
            exact hc.stores_eq
          · rcases Nat.lt_succ_iff_lt_or_eq.mp hk with hbefore | heq
            · exact hc.aimed k hbefore
            · intro hmis
              obtain ⟨b, page, harea, _⟩ := hmis
              rw [heq, hnone] at harea
              cases harea
        generalize hnext : ({ c with
          pos := c.pos + 1
          addr := c.addr + 1
          count := wrap 64 (c.count + 1) } : WriteCursor) = d at hc' ⊢
        have hpos' : d.pos = c.pos + 1 := by rw [← hnext]
        have haddr' : d.addr = c.addr + 1 := by rw [← hnext]
        have hleft' : d.count = wrap 64 (c.count + 1) := by rw [← hnext]
        have hcopied' : d.copied = c.copied := by rw [← hnext]
        rw [← hpos', ← hleft'] at hcount'
        obtain ⟨hplaced, hcounting, hcopied, hstop, hreach⟩ :=
          ih hc' hcount' (fun v hv => hhole v (by omega)) (by omega)
        refine ⟨hplaced, hcounting, hcopied.trans hcopied', hstop, fun hf => ?_⟩
        rw [hreach hf]
        omega
    · rw [if_neg hlt]
      have haddr : c.addr = max c.addr vaddr := by omega
      exact ⟨hc, hcount, rfl, fun hf => Bool.noConfusion hf, fun _ => haddr⟩

/-- What an area advances. -/
theorem writeArea_advance (buf : ℕ → ℕ) (a : VmStruct) (c : WriteCursor) :
    (writeArea buf a c).pos = c.pos + min (liveEnd a - c.addr) c.count ∧
      (writeArea buf a c).addr = c.addr + min (liveEnd a - c.addr) c.count ∧
      (writeArea buf a c).count = c.count - min (liveEnd a - c.addr) c.count := by
  rw [writeArea]
  generalize min (liveEnd a - c.addr) c.count = n
  exact ⟨rfl, rfl, rfl⟩

/-- An area ends where its live part does, or with no bytes left. -/
theorem writeArea_end (buf : ℕ → ℕ) {a : VmStruct} {c : WriteCursor} (h : c.addr ≤ liveEnd a) :
    (writeArea buf a c).addr ≤ liveEnd a ∧
      ((writeArea buf a c).count = 0 ∨ (writeArea buf a c).addr = liveEnd a) := by
  obtain ⟨_, haddr, hcount⟩ := writeArea_advance buf a c
  rw [haddr, hcount]
  generalize liveEnd a = fin at h ⊢
  omega

/-- An area that is written has the stores of its copies, and is counted. -/
theorem writeArea_written (buf : ℕ → ℕ) {a : VmStruct} {c : WriteCursor} {n : ℕ}
    (hn : min (liveEnd a - c.addr) c.count = n) (h : a.flags &&& vmIoremap = 0) :
    (writeArea buf a c).mem = (alignedVwrite buf n { c with count := n }).mem ∧
      (writeArea buf a c).stores = (alignedVwrite buf n { c with count := n }).stores ∧
      (writeArea buf a c).copied = toSigned 32 (c.copied + 1) := by
  obtain ⟨hcopied, _⟩ := alignedVwrite_advance buf n { c with count := n }
  simp only at hcopied
  simp only [writeArea, hn, if_pos h, hcopied, and_self]

/-- An area that is passed over has no stores. -/
theorem writeArea_passed (buf : ℕ → ℕ) {a : VmStruct} (c : WriteCursor)
    (h : ¬a.flags &&& vmIoremap = 0) :
    (writeArea buf a c).mem = c.mem ∧ (writeArea buf a c).stores = c.stores ∧
      (writeArea buf a c).copied = c.copied := by
  simp only [writeArea, if_neg h, and_self]

/-- What was stored before an area remains so. -/
theorem writeArea_stores (buf : ℕ → ℕ) (a : VmStruct) (c : WriteCursor) :
    c.stores ⊆ (writeArea buf a c).stores := by
  by_cases hflags : a.flags &&& vmIoremap = 0
  · generalize hn : min (liveEnd a - c.addr) c.count = n
    obtain ⟨_, hstores, _⟩ := writeArea_written buf hn hflags
    rw [hstores]
    exact (alignedVwrite_advance buf n { c with count := n }).2
  · obtain ⟨_, hstores, _⟩ := writeArea_passed buf c hflags
    rw [hstores]
    exact List.Subset.refl _

/-- The part of an area that the count covers is placed, or a copy goes astray. -/
theorem writeArea_spec (hs : SlotUnused m) (h : Areas vmlist) (hn : NotTables m vmlist)
    {a : VmStruct} (ha : a ∈ vmlist) (hc : Placed m vmlist buf addr c)
    (hcount : Counting vmlist addr count c.pos c.count) (hstart : c.addr = max addr a.addr)
    (hle : c.addr ≤ liveEnd a) :
    Placed m vmlist buf addr (writeArea buf a c) ∧
        Counting vmlist addr count (writeArea buf a c).pos (writeArea buf a c).count ∨
      Astray m vmlist buf addr count (writeArea buf a c) := by
  have haddr := hc.addr_eq
  obtain ⟨hpos', haddr', hleft'⟩ := writeArea_advance buf a c
  have hwritten := @writeArea_written buf a c
  have hpassed := @writeArea_passed buf a c
  generalize hlen : min (liveEnd a - c.addr) c.count = n at hpos' haddr' hleft' hwritten
  generalize writeArea buf a c = d at hpos' haddr' hleft' hwritten hpassed ⊢
  have harea : ∀ i < n, areaAt vmlist (addr + (c.pos + i)) = some a := fun i hi =>
    h.areaAt_eq ha (by omega) (by omega)
  have hsome : ∀ i < n, (areaAt vmlist (addr + (c.pos + i))).isSome := by
    intro i hi
    rw [harea i hi]
    rfl
  have hcount' := hcount.areas (i := n) (by omega) hsome
  have hreach : ∀ i < n, Reached vmlist addr count (c.pos + i) := by
    intro i hi
    exact (hcount.areas (by omega) fun j hj => hsome j (by omega)).reached (by omega)
  have hat : d.addr = addr + d.pos := by omega
  rw [← hpos', ← hleft'] at hcount'
  by_cases hflags : a.flags &&& vmIoremap = 0
  · have hpart : Placed m vmlist buf addr { c with count := n } :=
      ⟨haddr, hc.stores_eq, hc.mem_eq, hc.aimed⟩
    have hrun := alignedVwrite_spec hs h hn ha hflags n hpart le_rfl hreach
      (by simp only; omega) (by simp only; omega) (.inr (.inl hstart))
    obtain ⟨hmem, hstores, _⟩ := hwritten rfl hflags
    rcases hrun with ⟨hplaced, hpos⟩ | hastray
    · have hpos'' : (alignedVwrite buf n { c with count := n }).pos = d.pos := hpos.trans hpos'.symm
      refine .inl ⟨⟨hat, ?_, ?_, ?_⟩, hcount'⟩
      · rw [hstores, hplaced.stores_eq, hpos'']
      · rw [hmem, hstores, hplaced.mem_eq]
      · have haimed := hplaced.aimed
        rwa [hpos''] at haimed
    · exact .inr (hastray.of_subset (by rw [hstores]; exact List.Subset.refl _))
  · have hnone : ∀ i < n, place m vmlist (addr + (c.pos + i)) = none := by
      intro i hi
      rw [place_area h ha (by omega) (by omega), if_neg hflags]
    obtain ⟨hmem, hstores, _⟩ := hpassed hflags
    refine .inl ⟨⟨hat, ?_, ?_, fun k hk => ?_⟩, hcount'⟩
    · rw [hstores, hpos', expectedStores_none hnone]
      exact hc.stores_eq
    · rw [hmem, hstores]
      exact hc.mem_eq
    · by_cases hbefore : k < c.pos
      · exact hc.aimed k hbefore
      · intro hmis
        obtain ⟨b, page, hin, hread, _⟩ := hmis
        have hsum : c.pos + (k - c.pos) = k := by omega
        have heq := harea (k - c.pos) (by omega)
        rw [hsum, hin] at heq
        cases heq
        exact hflags hread

/-- An area that is entered and is not passed over. -/
def Written (vmlist : List VmStruct) (addr count : ℕ) (a : VmStruct) : Prop :=
  a.flags &&& vmIoremap = 0 ∧ Entered vmlist addr count a

instance (vmlist : List VmStruct) (addr count : ℕ) (a : VmStruct) :
    Decidable (Written vmlist addr count a) := inferInstanceAs (Decidable (_ ∧ _))

/-- How many areas of a list are written. -/
def written (vmlist : List VmStruct) (addr count : ℕ) (rest : List VmStruct) : ℕ :=
  rest.countP fun a => decide (Written vmlist addr count a)

/-- An area that is not written does not count. -/
theorem written_cons_neg {a : VmStruct} {rest : List VmStruct} (h : ¬Written vmlist addr count a) :
    written vmlist addr count (a :: rest) = written vmlist addr count rest := by
  rw [written, written, List.countP_cons_of_neg (by simpa using h)]

/-- An area that is written counts. -/
theorem written_cons_pos {a : VmStruct} {rest : List VmStruct} (h : Written vmlist addr count a) :
    written vmlist addr count (a :: rest) = written vmlist addr count rest + 1 := by
  rw [written, written, List.countP_cons_of_pos (by simpa using h)]

/-- The number of a list without an area that is written. -/
theorem written_none {rest : List VmStruct} (h : ∀ a ∈ rest, ¬Written vmlist addr count a) :
    written vmlist addr count rest = 0 := by
  rw [written, List.countP_eq_zero]
  intro a ha
  simpa using h a ha

/-- One more area in the number as an `int`. -/
theorem toSigned_succ (k : ℕ) : toSigned 32 (toSigned 32 k + 1) = toSigned 32 ((k + 1 : ℕ) : ℤ) := by
  rw [toSigned, toSigned, toSigned, Int.bmod_add_bmod, Nat.cast_succ]

/-- What was stored before the rest of the loop remains so. -/
theorem vwriteLoop_stores (buf : ℕ → ℕ) (rest : List VmStruct) (c : WriteCursor) :
    c.stores ⊆ (vwriteLoop buf rest c).stores := by
  have hhole : ∀ (vaddr fuel : ℕ) (c : WriteCursor), (skipHole vaddr fuel c).2.stores = c.stores := by
    intro vaddr fuel
    induction fuel with
    | zero => exact fun c => rfl
    | succ fuel ih =>
      intro c
      rw [skipHole]
      by_cases hlt : c.addr < vaddr
      · rw [if_pos hlt]
        by_cases hzero : c.count = 0
        · rw [if_pos hzero]
        · rw [if_neg hzero, ih]
      · rw [if_neg hlt]
  induction rest generalizing c with
  | nil => exact List.Subset.refl _
  | cons a rest ih =>
    have hsub := hhole a.addr (a.addr - c.addr) c
    rw [vwriteLoop]
    by_cases hzero : c.count = 0
    · rw [if_pos hzero]
      exact List.Subset.refl _
    · rw [if_neg hzero]
      by_cases hskip : liveEnd a ≤ c.addr
      · rw [if_pos hskip]
        exact ih c
      · rw [if_neg hskip]
        generalize skipHole a.addr (a.addr - c.addr) c = hole at hsub ⊢
        dsimp only
        cases hole.1 with
        | true =>
          rw [if_pos rfl, hsub]
          exact List.Subset.refl _
        | false =>
          rw [if_neg Bool.false_ne_true, ← hsub]
          exact List.Subset.trans (writeArea_stores buf a hole.2) (ih _)

/-- The guard page lies behind the live part. -/
theorem liveEnd_add {a : VmStruct} (h : 4096 ≤ a.size) : liveEnd a + 4096 = a.addr + a.size :=
  Nat.sub_add_cancel (h.trans (Nat.le_add_left _ _))

/-- Where the write of the rest of the areas ends. -/
structure Finished (m : Memory) (vmlist : List VmStruct) (buf : ℕ → ℕ) (addr count areas : ℕ)
    (c : WriteCursor) : Prop where
  /-- What was passed is placed. -/
  placed : Placed m vmlist buf addr c
  /-- The bytes left. -/
  counting : Counting vmlist addr count c.pos c.count
  /-- The number of areas written. -/
  copied : c.copied = toSigned 32 areas
  /-- No byte is left, or no area. -/
  ends : c.count = 0 ∨ ∀ a ∈ vmlist, liveEnd a ≤ c.addr

/-- Without a byte left no further area is written. -/
theorem not_written_of_spent {a : VmStruct} {n : ℕ} (hspent : Spent vmlist addr count n)
    (hn : n = 0 ∨ addr + n < a.addr) : ¬Written vmlist addr count a := by
  intro hwritten
  exact hwritten.2.2 n (by omega) hspent

/-- The areas that are written, one by one. -/
theorem written_cons (a : VmStruct) (rest : List VmStruct) : written vmlist addr count (a :: rest) =
    written vmlist addr count [a] + written vmlist addr count rest := by
  rw [written, written, written, List.countP_cons, List.countP_cons, List.countP_nil]
  omega

/-- Where the loop stands before the rest of the areas. -/
structure Standing (m : Memory) (vmlist : List VmStruct) (buf : ℕ → ℕ) (addr count areas : ℕ)
    (rest : List VmStruct) (c : WriteCursor) : Prop where
  /-- The rest of the areas. -/
  sublist : rest.Sublist vmlist
  /-- The other areas are passed, if a byte is left. -/
  passed : c.count ≠ 0 → ∀ a ∈ vmlist, a ∈ rest ∨ liveEnd a ≤ c.addr
  /-- What was passed is placed. -/
  placed : Placed m vmlist buf addr c
  /-- The bytes left. -/
  counting : Counting vmlist addr count c.pos c.count
  /-- The number of areas written. -/
  copied : c.copied = toSigned 32 areas
  /-- The rest of the areas is ahead, once a byte was passed. -/
  ahead : c.pos = 0 ∨ ∀ a ∈ rest, c.addr < a.addr

/-- Where the loop stands before an area that it enters. -/
structure Entering (m : Memory) (vmlist : List VmStruct) (buf : ℕ → ℕ) (addr count areas : ℕ)
    (a : VmStruct) (rest : List VmStruct) (c : WriteCursor) : Prop where
  /-- The rest of the areas. -/
  sublist : (a :: rest).Sublist vmlist
  /-- The other areas are passed. -/
  passed : ∀ b ∈ vmlist, b ∈ a :: rest ∨ liveEnd b ≤ c.addr
  /-- What was passed is placed. -/
  placed : Placed m vmlist buf addr c
  /-- The bytes left. -/
  counting : Counting vmlist addr count c.pos c.count
  /-- The number of areas written. -/
  copied : c.copied = toSigned 32 areas
  /-- The part of the area in the range starts here. -/
  start : c.addr = max addr a.addr
  /-- The area does not end before. -/
  live : c.addr ≤ liveEnd a
  /-- The area is reached with a byte left. -/
  entered : Entered vmlist addr count a

/-- The areas after the first of the rest. -/
theorem Areas.next (h : Areas vmlist) {a : VmStruct} {rest : List VmStruct}
    (hsub : (a :: rest).Sublist vmlist) : ∀ b ∈ rest, a.addr + a.size ≤ b.addr := fun _ hb =>
  List.rel_of_pairwise_cons (h.apart.sublist hsub) hb

/-- The loop ends when no byte is left. -/
theorem Standing.spent {areas : ℕ} {rest : List VmStruct}
    (h : Standing m vmlist buf addr count areas rest c) (hzero : c.count = 0) :
    Finished m vmlist buf addr count (areas + written vmlist addr count rest) c := by
  have haddr := h.placed.addr_eq
  have hspent := h.counting.spent_iff.mpr hzero
  have hnone : written vmlist addr count rest = 0 := by
    refine written_none fun b hb => not_written_of_spent hspent ?_
    rcases h.ahead with heq | hlt
    · exact .inl heq
    · have := hlt b hb
      exact .inr (by omega)
  rw [hnone]
  exact ⟨h.placed, h.counting, h.copied, .inl hzero⟩

/-- The loop ends when no area is left. -/
theorem Standing.last {areas : ℕ} (h : Standing m vmlist buf addr count areas [] c) :
    Finished m vmlist buf addr count (areas + written vmlist addr count []) c := by
  refine ⟨h.placed, h.counting, h.copied, ?_⟩
  by_cases hzero : c.count = 0
  · exact .inl hzero
  · refine .inr fun a ha => ?_
    rcases h.passed hzero a ha with hin | hle
    · cases hin
    · exact hle

/-- An area that ends before the address is skipped. -/
theorem Standing.skip {areas : ℕ} {a : VmStruct} {rest : List VmStruct} (hv : Areas vmlist)
    (h : Standing m vmlist buf addr count areas (a :: rest) c) (hzero : c.count ≠ 0)
    (hskip : liveEnd a ≤ c.addr) :
    Standing m vmlist buf addr count areas rest c ∧ ¬Written vmlist addr count a := by
  have haddr := h.placed.addr_eq
  have hguard := hv.guard a (h.sublist.subset List.mem_cons_self)
  have hbegin : c.pos = 0 := by
    rcases h.ahead with heq | hlt
    · exact heq
    · have := hlt a List.mem_cons_self
      have := le_liveEnd hguard
      omega
  refine ⟨⟨(List.sublist_cons_self a rest).trans h.sublist, fun _ b hb => ?_, h.placed, h.counting,
    h.copied, .inl hbegin⟩, fun hwritten => ?_⟩
  · rcases h.passed hzero b hb with hin | hle
    · rcases List.mem_cons.mp hin with heq | hrest
      · exact .inr (by rw [heq]; exact hskip)
      · exact .inl hrest
    · exact .inr hle
  · have := hwritten.2.1
    omega

/-- The hole before an area ends with no byte left, or the area is entered. -/
theorem Standing.hole {areas : ℕ} {a : VmStruct} {rest : List VmStruct} (hv : Areas vmlist)
    (h : Standing m vmlist buf addr count areas (a :: rest) c) (hzero : c.count ≠ 0)
    (hskip : ¬liveEnd a ≤ c.addr) :
    ((skipHole a.addr (a.addr - c.addr) c).1 = true →
      (skipHole a.addr (a.addr - c.addr) c).2.count = 0 ∧
      Standing m vmlist buf addr count areas (a :: rest)
        (skipHole a.addr (a.addr - c.addr) c).2) ∧
    ((skipHole a.addr (a.addr - c.addr) c).1 = false →
      Entering m vmlist buf addr count areas a rest (skipHole a.addr (a.addr - c.addr) c).2) := by
  have haddr := h.placed.addr_eq
  have hguard := hv.guard a (h.sublist.subset List.mem_cons_self)
  have hnext := Areas.next hv h.sublist
  have hnone : ∀ v, c.addr ≤ v → v < a.addr → areaAt vmlist v = none := by
    intro v hle hlt
    refine areaAt_none fun b hb => ?_
    rcases h.passed hzero b hb with hin | hend
    · rcases List.mem_cons.mp hin with heq | hrest
      · rw [heq]
        exact .inl hlt
      · have := hnext b hrest
        exact .inl (by omega)
    · exact .inr (hend.trans hle)
  have hfill := skipHole_spec (a.addr - c.addr) h.placed h.counting hnone (by omega)
  generalize skipHole a.addr (a.addr - c.addr) c = hole at hfill ⊢
  obtain ⟨hplaced, hcounting, hsame, hstop, hreach⟩ := hfill
  have hat := hplaced.addr_eq
  refine ⟨fun hfin => ?_, fun hfin => ?_⟩
  · obtain ⟨hout, hbefore⟩ := hstop hfin
    refine ⟨hout, h.sublist, fun hleft => absurd hout hleft, hplaced, hcounting,
      hsame.trans h.copied, .inr fun b hb => ?_⟩
    rcases List.mem_cons.mp hb with heq | hrest
    · rw [heq]
      exact hbefore
    · have := hnext b hrest
      omega
  · have hreached := hreach hfin
    refine ⟨h.sublist, fun b hb => ?_, hplaced, hcounting, hsame.trans h.copied, ?_, ?_, ?_, ?_⟩
    · exact (h.passed hzero b hb).imp_right fun hle => by omega
    · rcases h.ahead with heq | hlt
      · omega
      · have := hlt a List.mem_cons_self
        omega
    · have := le_liveEnd hguard
      omega
    · omega
    · intro j hj
      by_cases hbefore : j < hole.2.pos
      · exact hcounting.passed j hbefore
      · have hj0 : j = 0 := by omega
        have hpos0 : c.pos = 0 := by omega
        rw [hj0, ← hpos0, h.counting.spent_iff]
        exact hzero

/-- An area that is entered is written or passed over, or a copy goes astray. -/
theorem Entering.write {areas : ℕ} {a : VmStruct} {rest : List VmStruct} (hs : SlotUnused m)
    (hv : Areas vmlist) (hn : NotTables m vmlist)
    (h : Entering m vmlist buf addr count areas a rest c) :
    Standing m vmlist buf addr count (areas + written vmlist addr count [a]) rest
        (writeArea buf a c) ∨
      Astray m vmlist buf addr count (writeArea buf a c) := by
  have ha : a ∈ vmlist := h.sublist.subset List.mem_cons_self
  have hguard := hv.guard a ha
  have hend := writeArea_end buf h.live
  have hcopied : (writeArea buf a c).copied =
      toSigned 32 ((areas + written vmlist addr count [a] : ℕ) : ℤ) := by
    by_cases hflags : a.flags &&& vmIoremap = 0
    · rw [(writeArea_written buf rfl hflags).2.2, h.copied, toSigned_succ,
        written_cons_pos ⟨hflags, h.entered⟩]
      rfl
    · have hnot : ¬Written vmlist addr count a := fun hwritten => hflags hwritten.1
      rw [(writeArea_passed buf c hflags).2.2, h.copied, written_cons_neg hnot]
      rfl
  have hadvance := writeArea_advance buf a c
  have haddr := h.placed.addr_eq
  rcases writeArea_spec hs hv hn ha h.placed h.counting h.start h.live with
    ⟨hplaced, hcounting⟩ | hastray
  · refine .inl ⟨(List.sublist_cons_self a rest).trans h.sublist, fun hleft b hb => ?_, hplaced,
      hcounting, hcopied, .inr fun b hb => ?_⟩
    · have hfull : (writeArea buf a c).addr = liveEnd a := hend.2.resolve_left hleft
      rcases h.passed b hb with hin | hle
      · rcases List.mem_cons.mp hin with heq | hrest
        · exact .inr (by rw [heq, hfull])
        · exact .inl hrest
      · have hlive := h.live
        exact .inr (by omega)
    · have := Areas.next hv h.sublist b hb
      have := liveEnd_add hguard
      omega
  · exact .inr hastray

/-- The loop places the bytes up to where the count runs out or the last area ends, or a copy goes
astray. -/
theorem vwriteLoop_spec (hs : SlotUnused m) (hv : Areas vmlist) (hn : NotTables m vmlist)
    (rest : List VmStruct) {areas : ℕ} (h : Standing m vmlist buf addr count areas rest c) :
    Finished m vmlist buf addr count (areas + written vmlist addr count rest)
        (vwriteLoop buf rest c) ∨
      Astray m vmlist buf addr count (vwriteLoop buf rest c) := by
  induction rest generalizing c areas with
  | nil => exact .inl h.last
  | cons a rest ih =>
    rw [vwriteLoop]
    by_cases hzero : c.count = 0
    · rw [if_pos hzero]
      exact .inl (h.spent hzero)
    · rw [if_neg hzero]
      by_cases hskip : liveEnd a ≤ c.addr
      · obtain ⟨hrest, hnot⟩ := h.skip hv hzero hskip
        rw [if_pos hskip, written_cons_neg hnot]
        exact ih hrest
      · rw [if_neg hskip]
        obtain ⟨hstop, henter⟩ := h.hole hv hzero hskip
        generalize skipHole a.addr (a.addr - c.addr) c = hole at hstop henter ⊢
        dsimp only
        cases hfin : hole.1 with
        | true =>
          obtain ⟨hout, hstand⟩ := hstop hfin
          rw [if_pos rfl]
          exact .inl (hstand.spent hout)
        | false =>
          rw [if_neg Bool.false_ne_true, written_cons, ← Nat.add_assoc]
          rcases (henter hfin).write hs hv hn with hrest | hastray
          · exact ih hrest
          · exact .inr (hastray.of_subset (vwriteLoop_stores buf rest _))

/-- The bytes of a word with another byte. -/
theorem setByte_byte (word byte : ℕ) {i j : ℕ} (hi : i < 4) (hj : j < 4) :
    setByte word i byte / 256 ^ j % 256 = if j = i then byte % 256 else word / 256 ^ j % 256 := by
  rw [setByte]
  interval_cases i <;> interval_cases j <;> simp <;> omega

/-- The bytes after a store. -/
theorem physByte_storeByte (t : KernelTables) (p q byte : ℕ) :
    physByte (storeByte t p byte) q = if q = p then byte % 256 else physByte t q := by
  rw [physByte, physByte, storeByte]
  dsimp only
  by_cases hpage : q / 4096 = p / 4096
  · rw [hpage, Function.update_self]
    by_cases hword : q % 4096 / 4 = p % 4096 / 4
    · rw [hword, Function.update_self,
        setByte_byte _ _ (Nat.mod_lt _ (by decide)) (Nat.mod_lt _ (by decide))]
      exact if_congr ⟨fun h => by omega, fun h => by rw [h]⟩ rfl rfl
    · have hne : q ≠ p := fun heq => hword (by rw [heq])
      rw [Function.update_of_ne hword, if_neg hne]
  · have hne : q ≠ p := fun heq => hpage (by rw [heq])
    rw [Function.update_of_ne hpage, if_neg hne]

/-- A byte that is not stored to. -/
theorem physByte_frame (t : KernelTables) {stores : List (ℕ × ℕ)} {q : ℕ}
    (h : ∀ s ∈ stores, s.1 ≠ q) : physByte (applyStores buf t stores) q = physByte t q := by
  induction stores generalizing t with
  | nil => rfl
  | cons s rest ih =>
    rw [applyStores, List.foldl_cons, ← applyStores, ih _ fun r hr => h r (List.mem_cons_of_mem _ hr),
      physByte_storeByte, if_neg (h s List.mem_cons_self).symm]

/-- The byte stored last at an address. -/
theorem physByte_expectedStores (t : KernelTables) {n k p : ℕ} (hk : k < n)
    (hp : place m vmlist (addr + k) = some p)
    (hlast : ∀ j, k < j → j < n → place m vmlist (addr + j) ≠ some p) :
    physByte (applyStores buf t (expectedStores m vmlist addr n)) p = buf k % 256 := by
  induction n with
  | zero => omega
  | succ n ih =>
    rw [expectedStores_succ, applyStores_append]
    by_cases heq : k = n
    · rw [← heq, hp, Option.map_some, Option.toList_some, applyStores, List.foldl_cons,
        List.foldl_nil, physByte_storeByte, if_pos rfl]
    · have hbefore := ih (by omega) fun j hj hj' => hlast j hj (by omega)
      rw [physByte_frame, hbefore]
      intro s hs
      have hne := hlast n (by omega) (by omega)
      cases hplace : place m vmlist (addr + n) with
      | none =>
        rw [hplace] at hs
        cases hs
      | some q =>
        rw [hplace, Option.map_some, Option.toList_some, List.mem_singleton] at hs
        rw [hs]
        intro hq
        rw [hplace, ← hq] at hne
        exact hne rfl

/-- An address of the range is in the live part of an area that is written. -/
def MeetsWritten (vmlist : List VmStruct) (addr count : ℕ) : Prop :=
  ∃ a ∈ vmlist, a.flags &&& vmIoremap = 0 ∧
    ∃ v, addr ≤ v ∧ v < addr + count ∧ a.addr ≤ v ∧ v < liveEnd a

/-- The contract of `vwrite` for one range and buffer: the bytes of the buffer that belong to
mapped bytes of the range are stored there, the last one where a byte is mapped twice, nothing
else is, and the answer is their number if the range meets an area that is written. -/
structure Contract (m : Memory) (vmlist : List VmStruct) (buf : ℕ → ℕ) (addr count ret : ℕ)
    (m' : Memory) (stores : List (ℕ × ℕ)) : Prop where
  /-- The bytes stored. -/
  stores_iff : ∀ p k, (p, k) ∈ stores ↔ k < count ∧ place m vmlist (addr + k) = some p
  /-- Only they change the memory. -/
  memory : m' = writeStores buf m stores
  /-- The bytes mapped. -/
  bytes : ∀ k < count, ∀ p, place m vmlist (addr + k) = some p →
    (∀ j, k < j → j < count → place m vmlist (addr + j) ≠ some p) →
    physByte m'.tables p = buf k % 256
  /-- All other bytes. -/
  frame : ∀ q, (∀ k < count, place m vmlist (addr + k) ≠ some q) →
    physByte m'.tables q = physByte m.tables q
  /-- The answer of a range that meets an area. -/
  met : MeetsWritten vmlist addr count → ret = count
  /-- The answer of a range that meets none. -/
  missed : ¬MeetsWritten vmlist addr count → ret = 0

/-- The mapped bytes before which the count is never zero are those of the range. -/
def Kept (m : Memory) (vmlist : List VmStruct) (addr count : ℕ) : Prop :=
  ∀ k, (place m vmlist (addr + k)).isSome → (Reached vmlist addr count k ↔ k < count)

/-- The copies of the range go where its bytes are mapped. -/
def Aimed (m : Memory) (vmlist : List VmStruct) (buf : ℕ → ℕ) (addr count : ℕ) : Prop :=
  ∀ k < count, ¬Misaimed m vmlist buf addr k

/-- Areas are entered, not a multiple of `2^32` of them, exactly if the range meets one. -/
def Counted (vmlist : List VmStruct) (addr count : ℕ) : Prop :=
  count ≠ 0 → (written vmlist addr count vmlist % 2 ^ 32 ≠ 0 ↔ MeetsWritten vmlist addr count)

/-- Where the write ends, or a copy that went astray. -/
theorem vwrite_ends (buf : ℕ → ℕ) (hs : SlotUnused m) (h : Areas vmlist) (hn : NotTables m vmlist)
    (hwrap : addr + count < 2 ^ 64) :
    ∃ c, vwrite m vmlist buf addr count = (if c.copied = 0 then 0 else count, c.mem, c.stores) ∧
      (Finished m vmlist buf addr count (written vmlist addr count vmlist) c ∨
        Astray m vmlist buf addr count c) := by
  have hlen : (if wrap 64 (addr + count) < count then wrapSub 64 0 addr else count) = count := by
    rw [wrap_of_lt hwrap, if_neg (by omega)]
  have hbegin : Placed m vmlist buf addr ⟨0, addr, count, 0, m, []⟩ :=
    ⟨rfl, rfl, rfl, fun k hk => absurd hk (Nat.not_lt_zero k)⟩
  have hcount : Counting vmlist addr count 0 count := Counting.start (by omega)
  have hrun := @vwriteLoop_spec _ _ _ _ _ _ hs h hn vmlist 0
    ⟨List.Sublist.refl _, fun _ a ha => .inl ha, hbegin, hcount, rfl, .inl rfl⟩
  rw [Nat.zero_add] at hrun
  refine ⟨vwriteLoop buf vmlist ⟨0, addr, count, 0, m, []⟩, ?_, hrun⟩
  simp only [vwrite, hlen]

/-- A write that ends as expected has the stores of the range, if the mapped bytes are kept. -/
theorem Finished.stores_eq {areas : ℕ} (hf : Finished m vmlist buf addr count areas c)
    (hkept : Kept m vmlist addr count) : c.stores = expectedStores m vmlist addr count := by
  have haddr := hf.placed.addr_eq
  have hstores := hf.placed.stores_eq
  rw [hstores]
  rcases Nat.le_total c.pos count with hle | hle
  · have hnone : ∀ i < count - c.pos, place m vmlist (addr + (c.pos + i)) = none := by
      intro i hi
      by_contra hne
      have hreach := (hkept (c.pos + i) (Option.ne_none_iff_isSome.mp hne)).mpr (by omega)
      rcases hf.ends with hzero | hlive
      · exact hreach c.pos (by omega) (hf.counting.spent_iff.mpr hzero)
      · have harea : areaAt vmlist (addr + (c.pos + i)) = none :=
          areaAt_none fun a ha => .inr ((hlive a ha).trans (by omega))
        rw [place, harea] at hne
        exact hne rfl
    have hsum : c.pos + (count - c.pos) = count := by omega
    have hall := expectedStores_none hnone
    rw [hsum] at hall
    exact hall.symm
  · have hnone : ∀ i < c.pos - count, place m vmlist (addr + (count + i)) = none := by
      intro i hi
      by_contra hne
      have hlt := (hkept (count + i) (Option.ne_none_iff_isSome.mp hne)).mp fun j hj =>
        hf.counting.passed j (by omega)
      omega
    have hsum : count + (c.pos - count) = c.pos := by omega
    have hall := expectedStores_none hnone
    rwa [hsum] at hall

/-- A write that ends as expected keeps the mapped bytes, if its stores are those of the range. -/
theorem Finished.kept {areas : ℕ} (hf : Finished m vmlist buf addr count areas c)
    (hstores : ∀ p k, (p, k) ∈ c.stores ↔ k < count ∧ place m vmlist (addr + k) = some p) :
    Kept m vmlist addr count := by
  have haddr := hf.placed.addr_eq
  intro k hsome
  obtain ⟨p, hp⟩ := Option.isSome_iff_exists.mp hsome
  have hmem := hstores p k
  rw [hf.placed.stores_eq, mem_expectedStores] at hmem
  have hpos : k < c.pos ↔ k < count := by
    constructor
    · exact fun hlt => (hmem.mp ⟨hlt, hp⟩).1
    · exact fun hlt => (hmem.mpr ⟨hlt, hp⟩).1
  rw [← hpos]
  constructor
  · intro hreach
    by_contra hge
    rcases hf.ends with hzero | hlive
    · exact hreach c.pos (by omega) (hf.counting.spent_iff.mpr hzero)
    · have harea : areaAt vmlist (addr + k) = none :=
        areaAt_none fun a ha => .inr ((hlive a ha).trans (by omega))
      rw [place, harea] at hp
      cases hp
  · exact fun hlt j hj => hf.counting.passed j (by omega)

/-- A page that is copied to has a place. -/
theorem Misaimed.isSome {k : ℕ} (hmis : Misaimed m vmlist buf addr k) :
    (place m vmlist (addr + k)).isSome := by
  obtain ⟨a, page, harea, hflags, hpage, _⟩ := hmis
  rw [place, harea]
  simp only [if_pos hflags, hpage, Option.map_some, Option.isSome_some]

/-- A write that goes astray does not meet the contract, and some byte is not kept or some copy
not aimed. -/
theorem Astray.not_aimed (ha : Astray m vmlist buf addr count c) (hkept : Kept m vmlist addr count)
    (haimed : Aimed m vmlist buf addr count) : False := by
  obtain ⟨_, k, hreach, hmis⟩ := ha
  exact haimed k ((hkept k hmis.isSome).mp hreach) hmis

/-- The answer is zero exactly when a multiple of `2^32` areas is written. -/
theorem Finished.copied_eq_zero {areas : ℕ} (hf : Finished m vmlist buf addr count areas c) :
    c.copied = 0 ↔ areas % 2 ^ 32 = 0 := by
  rw [hf.copied, toSigned, ← Int.dvd_iff_bmod_eq_zero]
  omega

/-- `vwrite` meets its contract exactly when the mapped bytes of the range are those before which
the count does not run out, the copies go where they are mapped, and the areas are counted. -/
theorem vwrite_contract_iff (m : Memory) (vmlist : List VmStruct) (buf : ℕ → ℕ) (addr count : ℕ)
    (hs : SlotUnused m) (h : Areas vmlist) (hn : NotTables m vmlist)
    (hwrap : addr + count < 2 ^ 64) :
    Contract m vmlist buf addr count (vwrite m vmlist buf addr count).1
        (vwrite m vmlist buf addr count).2.1 (vwrite m vmlist buf addr count).2.2 ↔
      Kept m vmlist addr count ∧ Aimed m vmlist buf addr count ∧ Counted vmlist addr count := by
  obtain ⟨c, hrun, hend⟩ := vwrite_ends buf hs h hn hwrap
  rw [hrun]
  dsimp only
  have hanswer : (if c.copied = 0 then 0 else count) = 0 ↔ c.copied = 0 ∨ count = 0 := by
    by_cases hzero : c.copied = 0
    · rw [if_pos hzero]
      exact ⟨fun _ => .inl hzero, fun _ => rfl⟩
    · rw [if_neg hzero]
      exact ⟨fun h => .inr h, fun h => h.resolve_left hzero⟩
  constructor
  · intro hcontract
    rcases hend with hf | hastray
    · have hkept := hf.kept hcontract.stores_iff
      refine ⟨hkept, fun k hk hmis => ?_, fun hne => ?_⟩
      · obtain ⟨p, hp⟩ := Option.isSome_iff_exists.mp hmis.isSome
        have hmem := (hcontract.stores_iff p k).mpr ⟨hk, hp⟩
        rw [hf.placed.stores_eq, mem_expectedStores] at hmem
        exact hf.placed.aimed k hmem.1 hmis
      · have hcopied := hf.copied_eq_zero
        constructor
        · intro hareas
          by_contra hmiss
          have hret := hcontract.missed hmiss
          exact hareas (hcopied.mp ((hanswer.mp hret).resolve_right hne))
        · intro hmeet hareas
          have hret := hcontract.met hmeet
          rw [if_pos (hcopied.mpr hareas)] at hret
          exact hne hret.symm
    · obtain ⟨⟨s, hin, hne⟩, _⟩ := hastray
      exact absurd ((hcontract.stores_iff s.1 s.2).mp hin).2 hne
  · intro hgood
    obtain ⟨hkept, haimed, hcounted⟩ := hgood
    rcases hend with hf | hastray
    · have hstores := hf.stores_eq hkept
      have hmem := hf.placed.mem_eq
      refine ⟨fun p k => ?_, hmem, ?_, ?_, fun hmeet => ?_, fun hmiss => ?_⟩
      · rw [hstores]
        exact mem_expectedStores
      · intro k hk p hp hlast
        rw [hmem, hstores]
        exact physByte_expectedStores m.tables hk hp hlast
      · intro q hq
        rw [hmem, hstores]
        exact physByte_frame m.tables fun s hin heq => by
          have hplace := mem_expectedStores.mp hin
          exact hq s.2 hplace.1 (by rw [hplace.2, heq])
      · have hne : count ≠ 0 := by
          obtain ⟨a, _, _, v, hlo, hhi, _⟩ := hmeet
          omega
        have hareas := (hcounted hne).mpr hmeet
        rw [if_neg fun hzero => hareas (hf.copied_eq_zero.mp hzero)]
      · by_cases hne : count = 0
        · exact hanswer.mpr (.inr hne)
        · have hareas : written vmlist addr count vmlist % 2 ^ 32 = 0 := by
            by_contra hsome
            exact hmiss ((hcounted hne).mp hsome)
          exact hanswer.mpr (.inl (hf.copied_eq_zero.mpr hareas))
    · exact absurd haimed fun h => hastray.not_aimed hkept h

/-- The page of the area is none of the tables. -/
theorem onePageArea_notTables : NotTables (onePageMemory highPage) [onePageArea] := by
  have hplace : ∀ v p, place (onePageMemory highPage) [onePageArea] v = some p → p / 4096 = highPage := by
    intro v p hp
    have hin : 0xE0000000 ≤ v ∧ v < 0xE0001000 := by
      by_contra hout
      have hnone : areaAt [onePageArea] v = none := areaAt_none fun a ha => by
        rw [List.mem_singleton.mp ha]
        exact (show v < 0xE0000000 ∨ 0xE0001000 ≤ v by omega)
      rw [place, hnone] at hp
      cases hp
    have hlookup : vmallocToPage (onePageMemory highPage).tables 0xE0000000 = some highPage := by decide +kernel
    have hsame : v / 4096 = 0xE0000000 / 4096 := by omega
    rw [place_area onePageArea_areas List.mem_cons_self hin.1 hin.2, if_pos (by decide),
      vmallocToPage_same hsame, hlookup, Option.map_some, Option.some.injEq] at hp
    omega
  constructor
  · intro v p hp w hw
    have hin : 0xE0000000 ≤ w ∧ w < 0xE0001000 := by
      by_contra hout
      have hnone : areaAt [onePageArea] w = none := areaAt_none fun a ha => by
        rw [List.mem_singleton.mp ha]
        exact (show w < 0xE0000000 ∨ 0xE0001000 ≤ w by omega)
      rw [hnone] at hw
      cases hw
    have hgroup : pgdOffsetK w = pgdOffsetK 0xE0000000 := by
      rw [pgdOffsetK, pgdOffsetK]
      omega
    rw [hplace v p hp, hgroup]
    decide +kernel
  · intro v p hp
    rw [hplace v p hp]
    decide +kernel

/-- Four bytes from the start of the area are written. -/
theorem vwrite_contract_iff_onePage :
    (vwrite (onePageMemory highPage) [onePageArea] (fun k => k + 7) 0xE0000000 4).1 = 4 ∧
    Contract (onePageMemory highPage) [onePageArea] (fun k => k + 7) 0xE0000000 4
      (vwrite (onePageMemory highPage) [onePageArea] (fun k => k + 7) 0xE0000000 4).1
      (vwrite (onePageMemory highPage) [onePageArea] (fun k => k + 7) 0xE0000000 4).2.1
      (vwrite (onePageMemory highPage) [onePageArea] (fun k => k + 7) 0xE0000000 4).2.2 := by
  refine ⟨by decide +kernel, (vwrite_contract_iff (onePageMemory highPage) [onePageArea]
    (fun k => k + 7) 0xE0000000 4 onePageMemory_unused onePageArea_areas onePageArea_notTables
    (by decide)).mpr ⟨fun k _ => ?_, fun k _ => ?_, fun _ => ?_⟩⟩
  · have harea : ∀ j < 4, (areaAt [onePageArea] (0xE0000000 + (0 + j))).isSome := by decide +kernel
    have hstart : Counting [onePageArea] 0xE0000000 4 0 4 := Counting.start (by decide)
    constructor
    · intro hreach
      by_contra hge
      exact hreach 4 (by omega) ((hstart.areas le_rfl harea).spent_iff.mpr rfl)
    · intro hk
      have hcount := hstart.areas (i := k) hk.le fun j hj => harea j (hj.trans hk)
      rw [Nat.zero_add] at hcount
      exact hcount.reached (by omega)
  · rintro ⟨a, page, harea, _, hpage, hstart, hmis⟩
    have hin : 0xE0000000 + k < liveEnd onePageArea := by
      have hlive : liveEnd onePageArea = 0xE0001000 := rfl
      omega
    have hbegin : onePageArea.addr ≤ 0xE0000000 + k := Nat.le_add_right _ _
    rw [onePageArea_areas.areaAt_eq List.mem_cons_self hbegin hin, Option.some.injEq] at harea
    have hzero : k = 0 := by
      have haddr : a.addr = 0xE0000000 := by rw [← harea]; rfl
      rw [copyStart, haddr] at hstart
      omega
    subst hzero
    have hmapped : vmallocToPage (onePageMemory highPage).tables 0xE0000000 = some highPage := by
      decide +kernel
    rw [Nat.add_zero, hmapped, Option.some.injEq] at hpage
    rw [← hpage] at hmis
    exact hmis (by decide +kernel)
  · refine iff_of_true ?_ ⟨onePageArea, List.mem_cons_self, rfl, 0xE0000000, le_rfl, by decide,
      le_rfl, by decide⟩
    decide +kernel

/-- A write of two bytes that ends before the area stores four bytes in it, the first of them from
behind the buffer, and a write to the fifth byte of the page stores to its first. -/
theorem vwrite_contract_fails :
    ¬Contract (onePageMemory highPage) [onePageArea] (fun k => k + 7) 0xDFFFFFFE 2
        (vwrite (onePageMemory highPage) [onePageArea] (fun k => k + 7) 0xDFFFFFFE 2).1
        (vwrite (onePageMemory highPage) [onePageArea] (fun k => k + 7) 0xDFFFFFFE 2).2.1
        (vwrite (onePageMemory highPage) [onePageArea] (fun k => k + 7) 0xDFFFFFFE 2).2.2 ∧
      ¬Contract (onePageMemory highPage) [onePageArea] (fun k => k + 7) 0xE0000004 1
        (vwrite (onePageMemory highPage) [onePageArea] (fun k => k + 7) 0xE0000004 1).1
        (vwrite (onePageMemory highPage) [onePageArea] (fun k => k + 7) 0xE0000004 1).2.1
        (vwrite (onePageMemory highPage) [onePageArea] (fun k => k + 7) 0xE0000004 1).2.2 := by
  constructor
  · intro hcontract
    have hstores : (vwrite (onePageMemory highPage) [onePageArea] (fun k => k + 7) 0xDFFFFFFE 2).2.2 =
        [(0x70000000, 2), (0x70000001, 3), (0x70000002, 4), (0x70000003, 5)] := by decide +kernel
    have hfirst := (hcontract.stores_iff 0x70000000 2).mp (by
      rw [hstores]
      exact List.mem_cons_self)
    omega
  · intro hcontract
    have hstores : (vwrite (onePageMemory highPage) [onePageArea] (fun k => k + 7) 0xE0000004 1).2.2 =
        [(0x70000000, 0)] := by decide +kernel
    have hplace : place (onePageMemory highPage) [onePageArea] 0xE0000004 = some 0x70000004 := by
      decide +kernel
    have hfirst := (hcontract.stores_iff 0x70000000 0).mp (by
      rw [hstores]
      exact List.mem_cons_self)
    rw [Nat.add_zero, hplace] at hfirst
    cases hfirst.2

end BiscuitOS.VwriteContract
