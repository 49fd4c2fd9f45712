import BiscuitOS.VmapTables
import BiscuitOS.MmuStores

/-!
# A function on every page of a range

`apply_to_page_range` of `mm/memory.c` with its four levels, over the page
tables of an address space. The function may change the tables and data of its
own; every call of it is noted. However many directory entries a range covers,
the calls are those of a plain loop over its pages, each with the entry that a
lookup from the directory finds.
-/

namespace BiscuitOS.ApplyRange

open MachineWord MmuModel MmuStores RangeWalk VmapTables

/-- `_PAGE_USER_TABLE`: a table, `PMD_BIT4` and the domain of user space. -/
def pageUserTable : ℕ := 1 ||| 2 ^ 4 ||| 1 <<< 5

/-- `pmd_populate`. -/
def pmdPopulate (t : KernelTables) (pmd frame : ℕ) : KernelTables :=
  let pmdval := (frame * 4096 + pteHwtableOff) ||| pageUserTable
  { t with
    pmd := Function.update (Function.update t.pmd pmd (wrap 32 pmdval)) (pmd + 1)
      (wrap 32 (pmdval + 256 * 4)) }

/-- `pte_alloc_map_lock`: the table of an entry, none when there is no page for it. -/
def pteAllocMapLock (t : KernelTables) (pmd : ℕ) : Option (ℕ × KernelTables) :=
  if t.pmd pmd = 0 then
    (getFreePage t).map fun r => (pmdPage (pmdPopulate r.2 pmd r.1) pmd, pmdPopulate r.2 pmd r.1)
  else some (pmdPage t pmd, t)

/-- The table of an entry, by whether the address space is `init_mm`. -/
def pteAlloc (kernel : Bool) (t : KernelTables) (pmd : ℕ) : Option (ℕ × KernelTables) :=
  if kernel then pteAllocKernel t pmd else pteAllocMapLock t pmd

/-- `pte_fn_t`: from an entry, as the page of its table and its index, the page of the table, the
address, the tables and other data, its result and what it leaves. -/
abbrev PteFn (τ : Type) := ℕ × ℕ → ℕ → ℕ → KernelTables × τ → ℤ × KernelTables × τ

/-- A call of the function: its arguments, what it found, and its result. -/
structure Call (τ : Type) where
  /-- `pte`. -/
  pte : ℕ × ℕ
  /-- `token`. -/
  token : ℕ
  /-- `addr`. -/
  addr : ℕ
  /-- The tables that it found. -/
  tables : KernelTables
  /-- The data that it found. -/
  data : τ
  /-- The result. -/
  err : ℤ

/-- The tables of an address space, the data of the function, and the calls made so far. -/
structure Space (τ : Type) where
  /-- The tables. -/
  tables : KernelTables
  /-- The data. -/
  data : τ
  /-- The calls, in order. -/
  calls : List (Call τ)

variable {τ : Type} (kernel : Bool) (fn : PteFn τ)

/-- One round of `apply_to_pte_range` at an entry of the table `frame`. -/
def applyToPte (frame token : ℕ) (s : Space τ) (pte addr _ : ℕ) : Option (ℤ × Space τ) :=
  let r := fn (frame, pte) token addr (s.tables, s.data)
  some (r.1, ⟨r.2.1, r.2.2, s.calls ++ [⟨(frame, pte), token, addr, s.tables, s.data, r.1⟩]⟩)

/-- `apply_to_pte_range`. -/
def applyToPteRange (s : Space τ) (pmd addr fin : ℕ) : Option (ℤ × Space τ) :=
  match pteAlloc kernel s.tables pmd with
  | none => some (-enomem, s)
  | some r =>
    walk 1 pteAddrEnd (applyToPte fn r.1 (pmdPage r.2 pmd)) fin (fin - addr)
      { s with tables := r.2 } (pteIndex addr) addr

/-- `apply_to_pmd_range`. -/
def applyToPmdRange (s : Space τ) (pud addr fin : ℕ) : Option (ℤ × Space τ) :=
  walk 1 pmdAddrEnd (applyToPteRange kernel fn) fin (fin - addr) s pud addr

/-- `apply_to_pud_range`. -/
def applyToPudRange (s : Space τ) (pgd addr fin : ℕ) : Option (ℤ × Space τ) :=
  walk 2 pudAddrEnd (applyToPmdRange kernel fn) fin (fin - addr) s pgd addr

/-- `apply_to_page_range`. -/
def applyToPageRange (s : Space τ) (addr size : ℕ) : Option (ℤ × Space τ) :=
  let fin := wrap 64 (addr + size)
  walk 2 pgdAddrEnd (applyToPudRange kernel fn) fin (fin - addr) s (pgdOffsetK addr) addr

/-- The entry that the walk of `vmalloc_to_page` finds for an address, none without a table. -/
def pteSlot (t : KernelTables) (addr : ℕ) : Option (ℕ × ℕ) :=
  if t.pmd (pgdOffsetK addr) = 0 then none
  else some (pmdPage t (pgdOffsetK addr), pteIndex addr)

/-- The first of the calls whose page has its entry in the same table as page `i` of a range. -/
def firstOf (start i : ℕ) : ℕ := i - min i ((start / 4096 + i) % 512)

/-- The function leaves the words of the directory as they are. -/
def KeepsDirectory : Prop := ∀ pte token addr st, (fn pte token addr st).2.1.pmd = st.1.pmd

/-- The calls made so far: one for each page from the start on, in ascending order, with the entry
that a lookup finds in the tables as they are when the first call for their table is made, and at
the call itself, unless the function changes the directory. -/
structure Ascending (start : ℕ) (calls : List (Call τ)) : Prop where
  /-- The addresses. -/
  order : ∀ i c, calls[i]? = some c → c.addr = start + 4096 * i
  /-- The entries. -/
  slot : ∀ i c f, calls[i]? = some c → calls[firstOf start i]? = some f →
    pteSlot f.tables c.addr = some c.pte
  /-- The entries, with a directory that stays. -/
  lookup : KeepsDirectory fn → ∀ c ∈ calls, pteSlot c.tables c.addr = some c.pte
  /-- The function was called. -/
  made : ∀ c ∈ calls, c.err = (fn c.pte c.token c.addr (c.tables, c.data)).1

/-- How a walk ends. -/
inductive Ended (start pages : ℕ) (err : ℤ) (s : Space τ) : Prop where
  /-- The last call gave an error, which is returned. -/
  | stopped (before : List (Call τ)) (last : Call τ) (calls : s.calls = before ++ [last])
      (zero : ∀ c ∈ before, c.err = 0) (failed : last.err ≠ 0) (result : err = last.err)
      (within : s.calls.length ≤ pages)
  /-- There is no page for the next table. -/
  | refused (zero : ∀ c ∈ s.calls, c.err = 0) (left : s.calls.length < pages)
      (none_free : pteAlloc kernel s.tables (pgdOffsetK (start + 4096 * s.calls.length)) = none)
      (result : err = -enomem)
  /-- There was a call for every page. -/
  | done (zero : ∀ c ∈ s.calls, c.err = 0) (all : s.calls.length = pages) (result : err = 0)

/-- All calls gave zero, and the next page is the one at `addr`. -/
structure Running (start addr : ℕ) (s : Space τ) : Prop where
  /-- The calls. -/
  ascending : Ascending fn start s.calls
  /-- No error. -/
  zero : ∀ c ∈ s.calls, c.err = 0
  /-- How far the calls are. -/
  reached : start + 4096 * s.calls.length = addr

/-- The first word of the entry of an address names a table. -/
def Names (t : KernelTables) (pmd frame : ℕ) : Prop := t.pmd pmd ≠ 0 ∧ pmdPage t pmd = frame

variable {kernel fn} {start addr top fin : ℕ} {s : Space τ} {t : KernelTables}

/-- A populated entry is not empty. -/
theorem populated_ne_zero {x flags : ℕ} (h : flags % 2 = 1) : wrap 32 (x ||| flags) ≠ 0 := by
  have hodd : (x ||| flags) % 2 = 1 := Nat.or_mod_two_eq_one.mpr (Or.inr h)
  rw [wrap]
  omega

/-- A table that is given is the one that the entry names. -/
theorem pteAlloc_names {pmd : ℕ} {r : ℕ × KernelTables} (h : pteAlloc kernel t pmd = some r) :
    Names r.2 pmd r.1 := by
  have hne : pmd ≠ pmd + 1 := (Nat.succ_ne_self pmd).symm
  cases kernel with
  | true =>
    have hrun : pteAllocKernel t pmd = some r := h
    rw [pteAllocKernel] at hrun
    by_cases hempty : t.pmd pmd = 0
    · rw [if_pos hempty] at hrun
      obtain ⟨page, -, rfl⟩ := Option.map_eq_some_iff.mp hrun
      refine ⟨?_, rfl⟩
      simp only [pmdPopulateKernel, Function.update_of_ne hne, Function.update_self]
      exact populated_ne_zero (by decide)
    · rw [if_neg hempty] at hrun
      obtain rfl := Option.some.inj hrun
      exact ⟨hempty, rfl⟩
  | false =>
    have hrun : pteAllocMapLock t pmd = some r := h
    rw [pteAllocMapLock] at hrun
    by_cases hempty : t.pmd pmd = 0
    · rw [if_pos hempty] at hrun
      obtain ⟨page, -, rfl⟩ := Option.map_eq_some_iff.mp hrun
      refine ⟨?_, rfl⟩
      simp only [pmdPopulate, Function.update_of_ne hne, Function.update_self]
      exact populated_ne_zero (by decide)
    · rw [if_neg hempty] at hrun
      obtain rfl := Option.some.inj hrun
      exact ⟨hempty, rfl⟩

/-- The first call for a table is not behind another one. -/
theorem firstOf_le (start i : ℕ) : firstOf start i ≤ i := Nat.sub_le _ _

/-- A page whose table was entered at page `i` has its first call there. -/
theorem firstOf_add {start i k : ℕ} (hentered : i = 0 ∨ (start / 4096 + i) % 512 = 0)
    (hk : (start / 4096 + i) % 512 + k < 512) : firstOf start (i + k) = i := by
  rw [firstOf]
  omega

/-- One more call. -/
theorem Ascending.snoc {calls : List (Call τ)} (h : Ascending fn start calls) {c : Call τ}
    (haddr : c.addr = start + 4096 * calls.length)
    (hmade : c.err = (fn c.pte c.token c.addr (c.tables, c.data)).1)
    (hslot : ∀ f, (calls ++ [c])[firstOf start calls.length]? = some f →
      pteSlot f.tables c.addr = some c.pte)
    (hlookup : KeepsDirectory fn → pteSlot c.tables c.addr = some c.pte) :
    Ascending fn start (calls ++ [c]) := by
  have hlast : (calls ++ [c])[calls.length]? = some c := List.getElem?_concat_length
  have hcases : ∀ i d, (calls ++ [c])[i]? = some d →
      (i < calls.length ∧ calls[i]? = some d) ∨ (i = calls.length ∧ d = c) := by
    intro i d hi
    obtain ⟨hlt, -⟩ := List.getElem?_eq_some_iff.mp hi
    rw [List.length_append, List.length_singleton] at hlt
    obtain hold | rfl : i < calls.length ∨ i = calls.length := by omega
    · rw [List.getElem?_append_left hold] at hi
      exact Or.inl ⟨hold, hi⟩
    · rw [hlast] at hi
      exact Or.inr ⟨rfl, (Option.some.inj hi).symm⟩
  constructor
  · intro i d hi
    rcases hcases i d hi with ⟨-, hd⟩ | ⟨rfl, rfl⟩
    · exact h.order i d hd
    · exact haddr
  · intro i d f hi hf
    rcases hcases i d hi with ⟨hlt, hd⟩ | ⟨rfl, rfl⟩
    · rw [List.getElem?_append_left ((firstOf_le start i).trans_lt hlt)] at hf
      exact h.slot i d f hd hf
    · exact hslot f hf
  · intro hkeeps d hd
    rcases List.mem_append.mp hd with hd | hd
    · exact h.lookup hkeeps d hd
    · rw [List.mem_singleton.mp hd]
      exact hlookup hkeeps
  · intro d hd
    rcases List.mem_append.mp hd with hd | hd
    · exact h.made d hd
    · rw [List.mem_singleton.mp hd]
      exact hmade

/-- The entry of an address in a table that its directory entry names. -/
theorem Names.slot {a frame : ℕ} (h : Names t (pgdOffsetK a) frame) :
    pteSlot t a = some (frame, pteIndex a) := by
  rw [pteSlot, if_neg h.1, h.2]

/-- A piece of the range from `start` to `top` that lies in one directory entry and starts there. -/
structure Piece (start top addr fin : ℕ) : Prop where
  /-- It is not empty. -/
  lt : addr < fin
  /-- It ends with its directory entry at the latest. -/
  group : fin ≤ (addr / 2 ^ 21 + 1) * 2 ^ 21
  /-- It starts with the range or with its directory entry. -/
  first : addr = start ∨ 2 ^ 21 ∣ addr
  /-- It starts with a page. -/
  page : 4096 ∣ addr
  /-- It ends with a page. -/
  aligned : 4096 ∣ fin
  /-- It lies in the range. -/
  le_top : fin ≤ top

/-- The state in one table: the calls, and the table that the directory entry names from the first
call on. -/
structure Inside (fn : PteFn τ) (start entered frame pmd a : ℕ) (s : Space τ) : Prop where
  /-- The calls. -/
  running : Running fn start a s
  /-- At least those in front of the table were made. -/
  entered_le : entered ≤ s.calls.length
  /-- The first call found the table. -/
  found : ∀ f, s.calls[entered]? = some f → Names f.tables pmd frame
  /-- Or it will find it. -/
  next : s.calls.length = entered → Names s.tables pmd frame
  /-- With a directory that stays, so will the calls behind it. -/
  kept : KeepsDirectory fn → Names s.tables pmd frame

/-- One round in a table. -/
theorem applyToPte_step (kernel : Bool) (token : ℕ) {entered frame a : ℕ} (hin : Piece start top addr fin)
    (hstart : 4096 ∣ start) (hentered : start + 4096 * entered = addr) (hlow : addr ≤ a)
    (hhigh : a < fin) (ha : 4096 ∣ a)
    (h : Inside fn start entered frame (pgdOffsetK addr) a s) :
    ∃ r, applyToPte fn frame token s (pteIndex a) a (a + 4096) = some r ∧
      (r.1 ≠ 0 → Ascending fn start r.2.calls ∧
        Ended kernel start ((top - start) / 4096) r.1 r.2) ∧
      (r.1 = 0 → Inside fn start entered frame (pgdOffsetK addr) (a + 4096) r.2) := by
  have hgroup := hin.group
  have htop := hin.le_top
  have hfin := hin.aligned
  have hreached := h.running.reached
  have hle := h.entered_le
  have hpgd : pgdOffsetK addr = pgdOffsetK a := by
    have hsame : addr / 2 ^ 21 = a / 2 ^ 21 := by omega
    rw [pgdOffsetK, pgdOffsetK, hsame]
  obtain ⟨k, hk⟩ := Nat.exists_eq_add_of_le hle
  have hfirst : firstOf start s.calls.length = entered := by
    rw [hk]
    refine firstOf_add ?_ ?_
    · rcases hin.first with heq | hdvd
      · exact Or.inl (by omega)
      · exact Or.inr (by omega)
    · omega
  let c : Call τ := ⟨(frame, pteIndex a), token, a, s.tables, s.data,
    (fn (frame, pteIndex a) token a (s.tables, s.data)).1⟩
  have hfound : ∀ f, (s.calls ++ [c])[entered]? = some f → Names f.tables (pgdOffsetK addr) frame := by
    intro f hf
    obtain hold | hnew := Nat.lt_or_eq_of_le hle
    · rw [List.getElem?_append_left hold] at hf
      exact h.found f hf
    · rw [hnew, List.getElem?_concat_length] at hf
      rw [← Option.some.inj hf]
      exact h.next hnew.symm
  have hasc : Ascending fn start (s.calls ++ [c]) := by
    refine h.running.ascending.snoc hreached.symm rfl (fun f hf => ?_) fun hkeeps => ?_
    · rw [hfirst] at hf
      have hnames := hfound f hf
      rw [hpgd] at hnames
      exact hnames.slot
    · have hnames := h.kept hkeeps
      rw [hpgd] at hnames
      exact hnames.slot
  have hlen : (s.calls ++ [c]).length = s.calls.length + 1 := List.length_append
  refine ⟨_, rfl, fun herr => ⟨hasc, ?_⟩, fun hzero => ⟨⟨hasc, ?_, ?_⟩, ?_, hfound, ?_, ?_⟩⟩
  · refine .stopped s.calls c rfl h.running.zero herr rfl ?_
    change (s.calls ++ [c]).length ≤ _
    rw [hlen]
    omega
  · intro d hd
    rcases List.mem_append.mp hd with hd | hd
    · exact h.running.zero d hd
    · rw [List.mem_singleton.mp hd]
      exact hzero
  · change start + 4096 * (s.calls ++ [c]).length = a + 4096
    rw [hlen]
    omega
  · change entered ≤ (s.calls ++ [c]).length
    rw [hlen]
    omega
  · intro heq
    change (s.calls ++ [c]).length = entered at heq
    rw [hlen] at heq
    omega
  · intro hkeeps
    have hsame := hkeeps (frame, pteIndex a) token a (s.tables, s.data)
    have hnames := h.kept hkeeps
    rw [Names, pmdPage] at hnames ⊢
    dsimp only
    rw [hsame]
    exact hnames

/-- The walk over one table. -/
theorem applyToPteRange_spec (hin : Piece start top addr fin) (hstart : 4096 ∣ start)
    (h : Running fn start addr s) :
    ∃ r, applyToPteRange kernel fn s (pgdOffsetK addr) addr fin = some r ∧
      (r.1 ≠ 0 → Ascending fn start r.2.calls ∧
        Ended kernel start ((top - start) / 4096) r.1 r.2) ∧
      (r.1 = 0 → Running fn start fin r.2) := by
  have hlt := hin.lt
  have htop := hin.le_top
  have hfin := hin.aligned
  have hreached := h.reached
  rw [applyToPteRange]
  cases halloc : pteAlloc kernel s.tables (pgdOffsetK addr) with
  | none =>
    have hpage := hin.page
    have hleft : s.calls.length < (top - start) / 4096 := by omega
    have hne : -enomem ≠ 0 := by decide
    refine ⟨_, rfl, fun _ => ⟨h.ascending, .refused h.zero hleft ?_ rfl⟩, fun hz => absurd hz hne⟩
    rw [hreached]
    exact halloc
  | some q =>
    have hentry : Inside fn start s.calls.length q.1 (pgdOffsetK addr) addr
        { s with tables := q.2 } := by
      refine ⟨⟨h.ascending, h.zero, hreached⟩, le_rfl, fun f hf => ?_, fun _ => pteAlloc_names halloc,
        fun _ => pteAlloc_names halloc⟩
      rw [List.getElem?_eq_none le_rfl] at hf
      cases hf
    have hpiece : ∀ b, pteAddrEnd b fin = b + 4096 := fun _ => rfl
    have hnext : ∀ b u, b < fin →
        (Inside fn start s.calls.length q.1 (pgdOffsetK addr) b u ∧ addr ≤ b ∧ 4096 ∣ b) →
        b < pteAddrEnd b fin ∧ pteAddrEnd b fin ≤ fin ∧
          (pteAddrEnd b fin ≠ fin → pteIndex (pteAddrEnd b fin) = pteIndex b + 1) := by
      intro b u hb hu
      have hgroup := hin.group
      rw [hpiece]
      refine ⟨by omega, by omega, fun hne => ?_⟩
      rw [pteIndex_eq, pteIndex_eq]
      omega
    have hvisit : ∀ b u, b < fin →
        (Inside fn start s.calls.length q.1 (pgdOffsetK addr) b u ∧ addr ≤ b ∧ 4096 ∣ b) →
        ∃ r, applyToPte fn q.1 (pmdPage q.2 (pgdOffsetK addr)) u (pteIndex b) b
            (pteAddrEnd b fin) = some r ∧
          (r.1 ≠ 0 → Ascending fn start r.2.calls ∧
            Ended kernel start ((top - start) / 4096) r.1 r.2) ∧
          (r.1 = 0 → Inside fn start s.calls.length q.1 (pgdOffsetK addr) (pteAddrEnd b fin) r.2 ∧
            addr ≤ pteAddrEnd b fin ∧ 4096 ∣ pteAddrEnd b fin) := by
      rintro b u hb ⟨hinside, hlow, hpage⟩
      obtain ⟨r, hrun, hstop, hgo⟩ := applyToPte_step kernel (pmdPage q.2 (pgdOffsetK addr)) hin
        hstart hreached hlow hb hpage hinside
      rw [hpiece]
      exact ⟨r, hrun, hstop, fun hz => ⟨hgo hz, by omega, by omega⟩⟩
    obtain ⟨r, hrun, hstop, hgo⟩ := walk_run hnext hvisit (fin - addr) _ addr le_rfl hlt
      ⟨hentry, le_rfl, hin.page⟩
    exact ⟨r, hrun, hstop, fun hz => (hgo hz).1.running⟩

/-- The levels between are folded: on a piece they do what the walk over its table does. -/
theorem applyToPudRange_eq (kernel : Bool) (fn : PteFn τ) (hin : Piece start top addr fin)
    (htop : top < 2 ^ 64) (s : Space τ) (pgd : ℕ) :
    applyToPudRange kernel fn s pgd addr fin = applyToPteRange kernel fn s pgd addr fin := by
  have hlt := hin.lt
  have hle := hin.le_top
  have hpmd : pmdAddrEnd addr fin = fin := by
    rw [pmdAddrEnd, pgdAddrEnd_min (by omega) (by omega) hlt.le, Nat.min_eq_right hin.group]
  rw [applyToPudRange, walk_one hlt rfl, applyToPmdRange, walk_one hlt hpmd]

/-- The pieces of the range. -/
theorem pgdAddrEnd_piece {a : ℕ} (hpage : 4096 ∣ a) (hfirst : a = start ∨ 2 ^ 21 ∣ a)
    (hlt : a < top) (htop : top < 2 ^ 64) (haligned : 4096 ∣ top) :
    Piece start top a (pgdAddrEnd a top) := by
  have hend := pgdAddrEnd_min (by omega) htop hlt.le
  rw [hend]
  exact ⟨by omega, by omega, hfirst, hpage, by omega, by omega⟩

/-- A piece ends with the range or with its directory entry. -/
theorem pgdAddrEnd_ends {b : ℕ} (hlt : b < fin) (hfin : fin < 2 ^ 64) :
    pgdAddrEnd b fin = fin ∨ 2 ^ 21 ∣ pgdAddrEnd b fin := by
  have hend := pgdAddrEnd_min (by omega) hfin hlt.le
  omega

/-- The entry of the next piece is the next one. -/
theorem pgdAddrEnd_next {b : ℕ} (hlt : b < fin) (hfin : fin < 2 ^ 64) :
    b < pgdAddrEnd b fin ∧ pgdAddrEnd b fin ≤ fin ∧
      (pgdAddrEnd b fin ≠ fin → pgdOffsetK (pgdAddrEnd b fin) = pgdOffsetK b + 2) := by
  have hend := pgdAddrEnd_min (by omega) hfin hlt.le
  refine ⟨by omega, by omega, fun hne => ?_⟩
  have hgroup : pgdAddrEnd b fin = (b / 2 ^ 21 + 1) * 2 ^ 21 := by omega
  rw [hgroup, pgdOffsetK, pgdOffsetK]
  omega

/-- Before the first call. -/
theorem running_start (fn : PteFn τ) (t : KernelTables) (data : τ) (addr : ℕ) :
    Running fn addr addr ⟨t, data, []⟩ := by
  refine ⟨⟨fun i c hi => ?_, fun i c f hi _ => ?_, fun _ c hc => absurd hc List.not_mem_nil,
    fun c hc => absurd hc List.not_mem_nil⟩, fun c hc => absurd hc List.not_mem_nil, rfl⟩
  · cases hi
  · cases hi

/-- `apply_to_page_range` calls the function for every page of the range, in ascending order and
once each, with the entry that the walk of `vmalloc_to_page` finds, until a call gives an error or
there is no page for a table; the error of that call, `-ENOMEM` or zero is returned. -/
theorem applyToPageRange_visits (kernel : Bool) (fn : PteFn τ) (t : KernelTables) (data : τ)
    {addr size : ℕ} (haddr : 4096 ∣ addr) (hsize : 4096 ∣ size) (hpos : 0 < size)
    (hwrap : addr + size < 2 ^ 64) :
    ∃ err s, applyToPageRange kernel fn ⟨t, data, []⟩ addr size = some (err, s) ∧
      Ascending fn addr s.calls ∧ Ended kernel addr (size / 4096) err s := by
  have hfin : wrap 64 (addr + size) = addr + size := wrap_of_lt hwrap
  have hpages : (addr + size - addr) / 4096 = size / 4096 := by rw [Nat.add_sub_cancel_left]
  have hnext : ∀ b (u : Space τ), b < addr + size →
      (Running fn addr b u ∧ 4096 ∣ b ∧ (b = addr ∨ b = addr + size ∨ 2 ^ 21 ∣ b)) →
      b < pgdAddrEnd b (addr + size) ∧ pgdAddrEnd b (addr + size) ≤ addr + size ∧
        (pgdAddrEnd b (addr + size) ≠ addr + size →
          pgdOffsetK (pgdAddrEnd b (addr + size)) = pgdOffsetK b + 2) := by
    intro b u hb _
    exact pgdAddrEnd_next hb hwrap
  have hvisit : ∀ b (u : Space τ), b < addr + size →
      (Running fn addr b u ∧ 4096 ∣ b ∧ (b = addr ∨ b = addr + size ∨ 2 ^ 21 ∣ b)) →
      ∃ r, applyToPudRange kernel fn u (pgdOffsetK b) b (pgdAddrEnd b (addr + size)) = some r ∧
        (r.1 ≠ 0 → Ascending fn addr r.2.calls ∧ Ended kernel addr (size / 4096) r.1 r.2) ∧
        (r.1 = 0 → Running fn addr (pgdAddrEnd b (addr + size)) r.2 ∧
          4096 ∣ pgdAddrEnd b (addr + size) ∧ (pgdAddrEnd b (addr + size) = addr ∨
            pgdAddrEnd b (addr + size) = addr + size ∨ 2 ^ 21 ∣ pgdAddrEnd b (addr + size))) := by
    rintro b u hb ⟨hrunning, hpage, hfirst⟩
    have hpiece : Piece addr (addr + size) b (pgdAddrEnd b (addr + size)) :=
      pgdAddrEnd_piece hpage (by omega) hb hwrap (by omega)
    obtain ⟨r, hrun, hstop, hgo⟩ := @applyToPteRange_spec _ kernel fn _ _ _ _ _ hpiece haddr hrunning
    rw [hpages] at hstop
    refine ⟨r, (applyToPudRange_eq kernel fn hpiece hwrap u _).trans hrun, hstop, fun hz => ?_⟩
    exact ⟨hgo hz, hpiece.aligned, Or.inr (pgdAddrEnd_ends hb hwrap)⟩
  obtain ⟨r, hrun, hstop, hgo⟩ := walk_run hnext hvisit (addr + size - addr) ⟨t, data, []⟩ addr le_rfl
    (by omega) ⟨running_start fn t data addr, haddr, Or.inl rfl⟩
  refine ⟨r.1, r.2, ?_, ?_⟩
  · rw [applyToPageRange, hfin]
    exact hrun
  · by_cases hz : r.1 = 0
    · obtain ⟨hdone, -, -⟩ := hgo hz
      have hreached := hdone.reached
      exact ⟨hdone.ascending, .done hdone.zero (by omega) hz⟩
    · exact hstop hz

/-- An empty directory, with two pages left for tables. -/
def bareTables : KernelTables := ⟨fun _ => 0, fun _ _ => 0, [0x50400, 0x50401]⟩

/-- Two pages on both sides of a directory boundary. -/
theorem applyToPageRange_visits_boundary : ∃ err s,
    applyToPageRange true (fun _ _ _ st => (0, st)) ⟨bareTables, (), []⟩ 0x1FF000 0x2000 =
      some (err, s) ∧ Ascending (fun _ _ _ st => (0, st)) 0x1FF000 s.calls ∧
        Ended true 0x1FF000 (0x2000 / 4096) err s :=
  applyToPageRange_visits true _ bareTables () (by decide) (by decide) (by decide) (by decide)

/-- The calls of this walk: the last entry of the first table and the first one of the second. -/
example : ((applyToPageRange true (fun _ _ _ st => (0, st)) ⟨bareTables, (), []⟩ 0x1FF000 0x2000).map
    fun r => (r.1, r.2.calls.map fun c => (c.pte, c.addr))) =
      some (0, [((0x50400, 511), 0x1FF000), ((0x50401, 0), 0x200000)]) := by
  decide

end BiscuitOS.ApplyRange
