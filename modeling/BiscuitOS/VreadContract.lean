import BiscuitOS.VreadModel
import BiscuitOS.MmuStores

/-!
# What a read of the vmalloc space gives

The buffer is filled from its start with the bytes of the addresses, whatever
the areas and holes are. The copy of a page comes from the place that
`vaddr_to_phys` gives for it, and the answer is zero only when no area ends
behind the address, so the contract holds exactly where the copies come from
the bytes mapped and no hole is all that is read.
-/

namespace BiscuitOS.VreadContract

open MachineWord MmuModel VmapTables PcpuVmModel VreadModel

/-- The area whose live part has the address. -/
def areaAt (vmlist : List VmStruct) (v : ℕ) : Option VmStruct :=
  vmlist.find? fun a => decide (a.addr ≤ v ∧ v < liveEnd a)

/-- A function of the page that is mapped at an address of an area that is read, else zero. -/
def pageByte (m : Memory) (vmlist : List VmStruct) (byte : VmStruct → ℕ → ℕ) (v : ℕ) : ℕ :=
  match areaAt vmlist v with
  | none => 0
  | some a =>
    if a.flags &&& vmIoremap = 0 then
      match vmallocToPage m.tables v with
      | none => 0
      | some page => byte a page
    else 0

/-- The byte mapped at an address, zero in holes, guard pages, pages that are not mapped and
`VM_IOREMAP` areas. -/
def mappedByte (m : Memory) (vmlist : List VmStruct) (v : ℕ) : ℕ :=
  pageByte m vmlist (fun _ page => physByte m.tables (page * 4096 + v % 4096)) v

/-- Where the copy of the page of `v` starts in a read of the area from `addr`. -/
def copyStart (addr : ℕ) (a : VmStruct) (v : ℕ) : ℕ := max (max addr a.addr) (v / 4096 * 4096)

/-- The byte that the copy of a page gives for an address behind its start. -/
def copiedByte (m : Memory) (page start v : ℕ) : ℕ :=
  physByte (kmapAtomic m page).2.tables (copySource m page (start % 4096) + (v - start))

/-- Where the page of an address is mapped and read, it can be copied from. -/
def ReadableAt (m : Memory) (vmlist : List VmStruct) (addr v : ℕ) : Prop :=
  ∀ a page, areaAt vmlist v = some a → a.flags &&& vmIoremap = 0 →
    vmallocToPage m.tables v = some page → copyReadable m page (copyStart addr a v % 4096) = true

/-- The byte that a read from `addr` gives for an address. -/
def readByte (m : Memory) (vmlist : List VmStruct) (addr v : ℕ) : ℕ :=
  pageByte m vmlist (fun a page => copiedByte m page (copyStart addr a v) v) v

/-- The areas of `vmlist`: in the order of their addresses and apart, each with a guard page. -/
structure Areas (vmlist : List VmStruct) : Prop where
  /-- They are sorted and apart. -/
  apart : vmlist.Pairwise fun a b => a.addr + a.size ≤ b.addr
  /-- Each has its guard page. -/
  guard : ∀ a ∈ vmlist, 4096 ≤ a.size

/-- `KM_USER0` is not used, and low memory ends before the slots. -/
structure SlotUnused (m : Memory) : Prop where
  /-- The entry of the next slot is empty. -/
  empty : m.tables.words (topPte m.tables (kmapSlot m)).1 (topPte m.tables (kmapSlot m)).2 = 0
  /-- The linear address of a page in low memory. -/
  low : ∀ page, m.highMem page = false → physToVirt (page * 4096) < fixaddrStart

/-- Clearing an entry that was empty before it was set gives the tables as they were. -/
theorem setPteExt_restore {t : KernelTables} {frame entry : ℕ} (h : t.words frame entry = 0)
    (val : ℕ) : setPteExt (setPteExt t frame entry val) frame entry 0 = t := by
  have hzero : wrap 32 0 = 0 := rfl
  have hrow : Function.update (t.words frame) entry 0 = t.words frame := by
    rw [← h, Function.update_eq_self]
  simp only [setPteExt, Function.update_self, Function.update_idem, hzero, hrow,
    Function.update_eq_self]

/-- A slot of `pkmap_page_table` lies before those of `kmap_atomic`. -/
theorem pkmapAddr_lt (nr : Fin 512) : pkmapAddr nr < fixaddrStart := by
  have hnr := nr.isLt
  rw [pkmapAddr, fixaddrStart]
  omega

/-- Leaving an entered page gives the memory as it was. -/
theorem kunmap_kmap {m : Memory} (h : SlotUnused m) (page : ℕ) :
    kunmapAtomic (kmapAtomic m page).2 (kmapAtomic m page).1 = m := by
  rw [kmapAtomic]
  by_cases hlow : m.highMem page = false
  · rw [if_pos hlow, kunmapAtomic, if_neg (by have := h.low page hlow; omega)]
  · rw [if_neg hlow]
    cases hget : (if m.vivt then kmapHighGet m page else none) with
    | some kmap =>
      have hlt : kmap < fixaddrStart := by
        by_cases hvivt : m.vivt = true
        · rw [if_pos hvivt, kmapHighGet, Option.map_eq_some_iff] at hget
          obtain ⟨nr, _, hnr⟩ := hget
          rw [← hnr]
          exact pkmapAddr_lt nr
        · rw [if_neg hvivt] at hget
          cases hget
      rw [kunmapAtomic, if_neg (by simpa using hlt)]
    | none =>
      have hslot : fixaddrStart ≤ kmapSlot m := Nat.le_add_right _ _
      have hpage : kmapSlot m / 4096 * 4096 = kmapSlot m := by
        rw [kmapSlot, fixaddrStart]
        omega
      have hrestore := setPteExt_restore h.empty (page * 4096 ||| m.kmapProt.val)
      have hpte : ∀ t : KernelTables, t.pmd = m.tables.pmd →
          topPte t (kmapSlot m) = topPte m.tables (kmapSlot m) := by
        intro t ht
        rw [topPte, topPte, pmdPage, pmdPage, ht]
      simp only [kunmapAtomic, if_pos hslot, hpage]
      generalize hset : setPteExt m.tables (topPte m.tables (kmapSlot m)).1
        (topPte m.tables (kmapSlot m)).2 (page * 4096 ||| m.kmapProt.val) = t at hrestore ⊢
      have ht : t.pmd = m.tables.pmd := by
        rw [← hset]
        rfl
      rw [hpte t ht, hrestore, Nat.add_sub_cancel]

variable {m : Memory} {vmlist : List VmStruct}

/-- The live part of an area lies in it. -/
theorem liveEnd_le (a : VmStruct) : liveEnd a ≤ a.addr + a.size := Nat.sub_le _ _

/-- The live part of an area with a guard page does not end before it. -/
theorem le_liveEnd {a : VmStruct} (h : 4096 ≤ a.size) : a.addr ≤ liveEnd a :=
  Nat.le_sub_of_add_le (Nat.add_le_add_left h _)

/-- An address in the live part of an area is in no other. -/
theorem Areas.areaAt_eq (h : Areas vmlist) {a : VmStruct} (ha : a ∈ vmlist) {v : ℕ}
    (hlo : a.addr ≤ v) (hhi : v < liveEnd a) : areaAt vmlist v = some a := by
  induction vmlist with
  | nil => cases ha
  | cons b rest ih =>
    have hrest : Areas rest :=
      ⟨h.apart.of_cons, fun c hc => h.guard c (List.mem_cons_of_mem _ hc)⟩
    rcases List.mem_cons.mp ha with heq | hin
    · have hyes : decide (a.addr ≤ v ∧ v < liveEnd a) = true := decide_eq_true ⟨hlo, hhi⟩
      rw [areaAt, ← heq, List.find?_cons, hyes]
    · have hbefore := List.rel_of_pairwise_cons h.apart hin
      have hend := liveEnd_le b
      have hno : decide (b.addr ≤ v ∧ v < liveEnd b) = false := by
        rw [decide_eq_false_iff_not]
        omega
      rw [areaAt, List.find?_cons, hno]
      exact ih hrest hin

/-- An address that is in the live part of no area. -/
theorem areaAt_none {v : ℕ} (h : ∀ a ∈ vmlist, v < a.addr ∨ liveEnd a ≤ v) :
    areaAt vmlist v = none := by
  rw [areaAt, List.find?_eq_none]
  intro a ha
  have := h a ha
  simp only [decide_eq_true_eq]
  omega

/-- The buffer up to a place has the bytes of a function, and behind it is as before. -/
def Filled (byte buf0 buf : ℕ → ℕ) (pos : ℕ) : Prop :=
  ∀ k, buf k = if k < pos then byte k else buf0 k

/-- Bytes of one value behind the place. -/
theorem Filled.memset {byte buf0 buf : ℕ → ℕ} {pos length val : ℕ} (h : Filled byte buf0 buf pos)
    (hval : ∀ k, pos ≤ k → k < pos + length → byte k = val) :
    Filled byte buf0 (memset buf pos val length) (pos + length) := by
  intro k
  rw [VreadModel.memset]
  by_cases hin : pos ≤ k ∧ k < pos + length
  · rw [if_pos hin, if_pos hin.2, hval k hin.1 hin.2]
  · rw [if_neg hin, h k]
    by_cases hk : k < pos
    · rw [if_pos hk, if_pos (by omega)]
    · rw [if_neg hk, if_neg (by omega)]

/-- Bytes of a source behind the place. -/
theorem Filled.memcpy {byte buf0 buf src : ℕ → ℕ} {pos length : ℕ} (h : Filled byte buf0 buf pos)
    (hsrc : ∀ k, pos ≤ k → k < pos + length → byte k = src (k - pos)) :
    Filled byte buf0 (memcpy buf pos src length) (pos + length) := by
  intro k
  rw [VreadModel.memcpy]
  by_cases hin : pos ≤ k ∧ k < pos + length
  · rw [if_pos hin, if_pos hin.2, hsrc k hin.1 hin.2]
  · rw [if_neg hin, h k]
    by_cases hk : k < pos
    · rw [if_pos hk, if_pos (by omega)]
    · rw [if_neg hk, if_neg (by omega)]

/-- Where a read of `total` bytes from `addr` stands. -/
structure Reading (m : Memory) (vmlist : List VmStruct) (buf0 : ℕ → ℕ) (addr total : ℕ)
    (c : Cursor) : Prop where
  /-- The memory is as before. -/
  mem : c.mem = m
  /-- The address. -/
  addr_eq : c.addr = addr + c.pos
  /-- The bytes left. -/
  total_eq : c.pos + c.count = total
  /-- The bytes read. -/
  filled : Filled (fun k => readByte m vmlist addr (addr + k)) buf0 c.buf c.pos
  /-- The program goes on as long as the pages can be copied from. -/
  alive : c.died = false ↔ ∀ v, addr ≤ v → v < c.addr → ReadableAt m vmlist addr v

/-- The bytes of an area that is a hole, or where the page is not mapped. -/
theorem readByte_area (h : Areas vmlist) {a : VmStruct} (ha : a ∈ vmlist) {addr v : ℕ}
    (hlo : a.addr ≤ v) (hhi : v < liveEnd a) :
    readByte m vmlist addr v =
      if a.flags &&& vmIoremap = 0 then
        ((vmallocToPage m.tables v).map fun page =>
          copiedByte m page (copyStart addr a v) v).getD 0
      else 0 := by
  rw [readByte, pageByte, h.areaAt_eq ha hlo hhi]
  dsimp only
  by_cases hflags : a.flags &&& vmIoremap = 0
  · rw [if_pos hflags, if_pos hflags]
    cases vmallocToPage m.tables v with
    | none => rfl
    | some page => rfl
  · rw [if_neg hflags, if_neg hflags]

/-- Addresses of one page have one page. -/
theorem vmallocToPage_same {t : KernelTables} {v w : ℕ} (h : v / 4096 = w / 4096) :
    vmallocToPage t v = vmallocToPage t w := by
  have hgroup : v / 2 ^ 21 = w / 2 ^ 21 := by omega
  rw [vmallocToPage, vmallocToPage, pgdOffsetK, pgdOffsetK, hgroup, MmuStores.pteIndex_eq,
    MmuStores.pteIndex_eq, h]

variable {buf0 : ℕ → ℕ} {addr total : ℕ} {c : Cursor}

/-- The next bytes of the buffer were read, with `died` for their part. -/
theorem Reading.advance (hc : Reading m vmlist buf0 addr total c) {length : ℕ} {buf : ℕ → ℕ}
    {died : Bool} (hle : length ≤ c.count)
    (hfilled : Filled (fun k => readByte m vmlist addr (addr + k)) buf0 buf (c.pos + length))
    (hdied : died = false ↔ ∀ v, c.addr ≤ v → v < c.addr + length → ReadableAt m vmlist addr v) :
    Reading m vmlist buf0 addr total
      ⟨buf, c.pos + length, c.addr + length, c.count - length, m, c.died || died⟩ := by
  have haddr := hc.addr_eq
  have htotal := hc.total_eq
  constructor
  · rfl
  · simp only
    omega
  · simp only
    omega
  · exact hfilled
  · change (c.died || died) = false ↔ ∀ v, addr ≤ v → v < c.addr + length → _
    rw [Bool.or_eq_false_iff, hc.alive, hdied]
    constructor
    · rintro ⟨hbefore, hpart⟩ v hlo hhi
      by_cases hv : v < c.addr
      · exact hbefore v hlo hv
      · exact hpart v (not_lt.mp hv) hhi
    · exact fun hall => ⟨fun v hlo hhi => hall v hlo (by omega), fun v hlo hhi =>
        hall v (by omega) hhi⟩

/-- The next bytes of the buffer were filled without a copy. -/
theorem Reading.advance_filled (hc : Reading m vmlist buf0 addr total c) {length : ℕ}
    {buf : ℕ → ℕ} (hle : length ≤ c.count)
    (hfilled : Filled (fun k => readByte m vmlist addr (addr + k)) buf0 buf (c.pos + length))
    (hread : ∀ v, c.addr ≤ v → v < c.addr + length → ReadableAt m vmlist addr v) :
    Reading m vmlist buf0 addr total
      ⟨buf, c.pos + length, c.addr + length, c.count - length, m, c.died⟩ := by
  have hnext := @Reading.advance _ _ _ _ _ _ hc _ _ false hle hfilled ⟨fun _ => hread, fun _ => rfl⟩
  rwa [Bool.or_false] at hnext

/-- The copy of a page starts where the read of the area or the page itself starts. -/
theorem copyStart_eq {a : VmStruct} {v w : ℕ} (hlo : max addr a.addr ≤ w)
    (hstart : w = max addr a.addr ∨ 4096 ∣ w) (hpage : v / 4096 = w / 4096) :
    copyStart addr a v = w := by
  rw [copyStart]
  omega

/-- A round reads the rest of a page of an area. -/
theorem alignedRound_spec (hs : SlotUnused m) (h : Areas vmlist) {a : VmStruct} (ha : a ∈ vmlist)
    (hflags : a.flags &&& vmIoremap = 0) (hc : Reading m vmlist buf0 addr total c)
    (hpos : c.count ≠ 0) (hlo : max addr a.addr ≤ c.addr) (hhi : c.addr + c.count ≤ liveEnd a)
    (hstart : c.addr = max addr a.addr ∨ 4096 ∣ c.addr) :
    ∃ length, 0 < length ∧ length ≤ c.count ∧ Reading m vmlist buf0 addr total (alignedRound c) ∧
      (alignedRound c).pos = c.pos + length ∧
      ((alignedRound c).count = 0 ∨ 4096 ∣ (alignedRound c).addr) := by
  have haddr := hc.addr_eq
  have htotal := hc.total_eq
  have hmem := hc.mem
  generalize hlen : min (4096 - c.addr % 4096) c.count = length
  have hbytes : ∀ k, c.pos ≤ k → k < c.pos + length →
      readByte m vmlist addr (addr + k) =
        ((vmallocToPage m.tables c.addr).map fun page =>
          copiedByte m page c.addr (addr + k)).getD 0 := by
    intro k hk hlt
    have hpage : (addr + k) / 4096 = c.addr / 4096 := by omega
    rw [readByte_area h ha (by omega) (by omega), if_pos hflags, vmallocToPage_same hpage,
      copyStart_eq hlo hstart hpage]
  refine ⟨length, by omega, by omega, ?_⟩
  have hle : length ≤ c.count := by omega
  have hboundary : c.count - length = 0 ∨ 4096 ∣ c.addr + length := by omega
  cases hpage : vmallocToPage m.tables c.addr with
  | none =>
    rw [hpage] at hbytes
    have hround : alignedRound c = ⟨VreadModel.memset c.buf c.pos 0 length, c.pos + length,
        c.addr + length, c.count - length, m, c.died⟩ := by
      simp only [alignedRound, hmem, hlen, hpage]
    rw [hround]
    refine ⟨hc.advance_filled hle (hc.filled.memset hbytes) fun v hv hlt b page _ _ hmap => ?_, rfl,
      hboundary⟩
    rw [vmallocToPage_same (show v / 4096 = c.addr / 4096 by omega), hpage] at hmap
    cases hmap
  | some page =>
    rw [hpage] at hbytes
    have hcopied : ∀ k, c.pos ≤ k → k < c.pos + length → readByte m vmlist addr (addr + k) =
        physByte (kmapAtomic m page).2.tables
          (copySource m page (c.addr % 4096) + (k - c.pos)) := by
      intro k hk hlt
      have hoff : addr + k - c.addr = k - c.pos := by omega
      rw [hbytes k hk hlt, Option.map_some, Option.getD_some, copiedByte, hoff]
    have hround : alignedRound c = ⟨VreadModel.memcpy c.buf c.pos
        (fun i => physByte (kmapAtomic m page).2.tables (copySource m page (c.addr % 4096) + i))
        length, c.pos + length, c.addr + length, c.count - length, m,
        c.died || !copyReadable m page (c.addr % 4096)⟩ := by
      simp only [alignedRound, hmem, hlen, hpage, kunmap_kmap hs page]
    have hdied : (!copyReadable m page (c.addr % 4096)) = false ↔
        ∀ v, c.addr ≤ v → v < c.addr + length → ReadableAt m vmlist addr v := by
      rw [Bool.not_eq_false']
      constructor
      · intro hreadable v hv hlt b page' harea _ hmap
        have hsame : v / 4096 = c.addr / 4096 := by omega
        rw [h.areaAt_eq ha (by omega) (by omega), Option.some.injEq] at harea
        rw [vmallocToPage_same hsame, hpage, Option.some.injEq] at hmap
        rw [← harea, ← hmap, copyStart_eq hlo hstart hsame]
        exact hreadable
      · intro hall
        have hfirst := hall c.addr le_rfl (by omega) a page (h.areaAt_eq ha (by omega) (by omega))
          hflags hpage
        rwa [copyStart_eq hlo hstart rfl] at hfirst
    rw [hround]
    exact ⟨hc.advance hle (hc.filled.memcpy hcopied) hdied, rfl, hboundary⟩

/-- The copy of a page of high memory that `kmap_atomic` enters in a slot comes from the first
byte of the page, wherever it should start. -/
theorem copySource_high {page offset : ℕ} (hhigh : m.highMem page = true) (hvivt : m.vivt = false)
    (htop : m.tables.pmd (pgdOffsetK 0xffff0000) ≠ 0) (hidx : m.kmapAtomicIdx < 208)
    (hpage : page < 2 ^ 20) (hoff : offset < 4096) : copySource m page offset = page * 4096 := by
  have hval := m.kmapProt.val_lt
  have hodd := m.kmapProt.present
  have hslot : kmapSlot m = 0xfff10000 + m.kmapAtomicIdx * 4096 := by
    rw [kmapSlot, fixaddrStart, kmTypeNr]
    omega
  have hmap : kmapAtomic m page = (kmapSlot m, { m with
      kmapAtomicIdx := m.kmapAtomicIdx + 1
      tables := setPteExt m.tables (topPte m.tables (kmapSlot m)).1 (topPte m.tables (kmapSlot m)).2
        (page * 4096 ||| m.kmapProt.val) }) := by
    simp only [kmapAtomic, hhigh, hvivt, Bool.true_eq_false, Bool.false_eq_true, if_false]
  have hword : wrap 32 (page * 4096 ||| m.kmapProt.val) = page * 4096 + m.kmapProt.val := by
    have hdvd : 2 ^ 12 ∣ page * 4096 := by omega
    rw [MmuStores.or_flags hdvd hval, wrap_of_lt (by omega)]
  have haddr : wrap 32 (kmapSlot m + offset) = kmapSlot m + offset := wrap_of_lt (by omega)
  have hgroup : pgdOffsetK (kmapSlot m + offset) = pgdOffsetK 0xffff0000 := by
    rw [pgdOffsetK, pgdOffsetK]
    omega
  have hindex : pteIndex (kmapSlot m + offset) = pteIndex (kmapSlot m) := by
    rw [MmuStores.pteIndex_eq, MmuStores.pteIndex_eq]
    omega
  have hread : (setPteExt m.tables (topPte m.tables (kmapSlot m)).1
      (topPte m.tables (kmapSlot m)).2 (page * 4096 ||| m.kmapProt.val)).words
        (pmdPage m.tables (pgdOffsetK 0xffff0000)) (pteIndex (kmapSlot m)) =
      page * 4096 + m.kmapProt.val := by
    simp only [setPteExt, topPte, Function.update_self, hword]
  rw [copySource, hmap]
  dsimp only
  generalize hset : setPteExt m.tables (topPte m.tables (kmapSlot m)).1
    (topPte m.tables (kmapSlot m)).2 (page * 4096 ||| m.kmapProt.val) = t at hread ⊢
  have hpmd : t.pmd = m.tables.pmd := by
    rw [← hset]
    rfl
  have hframe : pmdPage t (pgdOffsetK 0xffff0000) = pmdPage m.tables (pgdOffsetK 0xffff0000) := by
    rw [pmdPage, pmdPage, hpmd]
  have hne : page * 4096 + m.kmapProt.val ≠ 0 := by omega
  have hbase : (page * 4096 + m.kmapProt.val) / 4096 * 4096 = page * 4096 := by omega
  simp only [vaddrToPhys, haddr, hgroup, hindex, hframe, hread, hpmd, if_neg htop, if_neg hne, hbase]
  exact wrap_of_lt (by omega)

/-- An address of the range is in the live part of an area. -/
def Meets (vmlist : List VmStruct) (addr count : ℕ) : Prop :=
  ∃ v, addr ≤ v ∧ v < addr + count ∧ (areaAt vmlist v).isSome

/-- The contract of `vread` for one range and buffer: zero and nothing written exactly when the
range meets no live area, else the number of bytes, which are those mapped. -/
structure Contract (m : Memory) (vmlist : List VmStruct) (buf : ℕ → ℕ) (addr count ret : ℕ)
    (buf' : ℕ → ℕ) : Prop where
  /-- The answer is zero exactly when no live area is met. -/
  zero_iff : ret = 0 ↔ ¬Meets vmlist addr count
  /-- Then nothing is written. -/
  nothing : ret = 0 → buf' = buf
  /-- Else the answer is the number of bytes. -/
  all : ret ≠ 0 → ret = count
  /-- These are the bytes written, and they are those mapped. -/
  bytes : ret ≠ 0 → ∀ k, buf' k = if k < count then mappedByte m vmlist (addr + k) else buf k

/-- Every mapped page of an area that is read and that the range meets can be copied from, and the
bytes from the start of the copy on are those mapped. -/
def Copied (m : Memory) (vmlist : List VmStruct) (addr count : ℕ) : Prop :=
  ∀ v, addr ≤ v → v < addr + count → ∀ a page, areaAt vmlist v = some a →
    a.flags &&& vmIoremap = 0 → vmallocToPage m.tables v = some page →
    copyReadable m page (copyStart addr a v % 4096) = true ∧
      copiedByte m page (copyStart addr a v) v = mappedByte m vmlist v

/-- A page mapped at the start of the vmalloc space, and the table of the slots. Pages of high memory
begin behind the first bank. -/
def onePageMemory (page : ℕ) : Memory where
  tables :=
    { pmd := fun i => if i = 3584 then 0x50500851 else if i = 4094 then 0x50501851 else 0
      words := fun frame i =>
        if frame = 0x50500 then if i = 0 then page * 4096 + 0x45F else 0
        else if frame = page then i
        else 0
      free := [] }
  highMem := fun page => decide (0x60001 ≤ page)
  vivt := false
  pkmap := fun _ => none
  kmapAtomicIdx := 0
  kmapProt := ⟨0x45F, by decide, by decide⟩

/-- A page of high memory. -/
def highPage : ℕ := 0x70000

/-- An area of one page. -/
def onePageArea : VmStruct := ⟨0xE0000000, 0x2000, 2, 0, 1⟩

/-- The slots are not used, and low memory ends before them. -/
theorem onePageMemory_unused : SlotUnused (onePageMemory highPage) := by
  constructor
  · decide +kernel
  · intro page hlow
    have hpage : page < 0x60001 := by simpa [onePageMemory] using hlow
    rw [physToVirt, wrap, wrapSub, physOffset, pageOffset, fixaddrStart]
    omega

/-- One area with its guard page. -/
theorem onePageArea_areas : Areas [onePageArea] :=
  ⟨List.pairwise_singleton _ _, by decide⟩

end BiscuitOS.VreadContract
