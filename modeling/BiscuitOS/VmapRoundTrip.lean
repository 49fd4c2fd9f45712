import BiscuitOS.VmapTables
import BiscuitOS.MmuMapping

/-!
# Mapping, looking up and unmapping

A walk over any number of directory entries, level by level: each level hands
the pieces of a range to the one below it, and an invariant of the address
reached holds from the start of the range to its end. The word that a lookup
reads changes for the pages of the range only, as long as no two directory
entries share a table and new tables come from unused pages.
-/

namespace BiscuitOS.VmapRoundTrip

open MachineWord MmuModel MmuStores MmuMapping RangeWalk VmapTables

section Levels

variable {σ : Type*} {top : ℕ} {codes : Set ℤ} {inv : ℕ → σ → Prop}
  {visit : σ → ℕ → ℕ → ℕ → Option (ℤ × σ)}

/-- A piece of the range below `top` that lies in one directory entry. -/
structure InGroup (top addr fin : ℕ) : Prop where
  /-- It is not empty. -/
  lt : addr < fin
  /-- It ends with its directory entry at the latest. -/
  group : fin ≤ (addr / 2 ^ 21 + 1) * 2 ^ 21
  /-- It consists of whole pages. -/
  aligned : 4096 ∣ fin
  /-- It lies in the range. -/
  le_top : fin ≤ top

/-- A level of the walk keeps an invariant over every piece in one directory entry, and gives
one of some codes. -/
def Level (top : ℕ) (codes : Set ℤ) (inv : ℕ → σ → Prop) (visit : σ → ℕ → ℕ → ℕ → Option (ℤ × σ)) : Prop :=
  ∀ addr fin s, inv addr s → InGroup top addr fin →
    ∃ r, visit s (pgdOffsetK addr) addr fin = some r ∧ r.1 ∈ codes ∧ (r.1 = 0 → inv fin r.2)

/-- A level that is folded into the one below it visits its piece at once. -/
theorem Level.folded (h : Level top codes inv visit) (step : ℕ) {pieceEnd : ℕ → ℕ → ℕ}
    (hone : ∀ addr fin, InGroup top addr fin → pieceEnd addr fin = fin) :
    Level top codes inv fun s entry addr fin => walk step pieceEnd visit fin (fin - addr) s entry addr := by
  intro addr fin s hinv hin
  obtain ⟨r, hrun, hcode, hkeep⟩ := h addr fin s hinv hin
  have hend := hone addr fin hin
  have hlt := hin.lt
  obtain ⟨n, hn⟩ : ∃ n, fin - addr = n + 1 := ⟨fin - addr - 1, by omega⟩
  refine ⟨r, ?_, hcode, hkeep⟩
  dsimp only
  rw [hn, walk, hend, hrun, Option.bind_some]
  split <;> simp

/-- An error code that a level passes on as another one. -/
theorem Level.mapped (h : Level top codes inv visit) {code : ℤ} (hcode : code ≠ 0)
    (hmem : code ∈ codes) :
    Level top codes inv fun s entry addr fin =>
      (visit s entry addr fin).map fun r => if r.1 ≠ 0 then (code, r.2) else r := by
  intro addr fin s hinv hin
  obtain ⟨r, hrun, hin', hkeep⟩ := h addr fin s hinv hin
  refine ⟨if r.1 ≠ 0 then (code, r.2) else r, by simp only [hrun, Option.map_some], ?_⟩
  by_cases herr : r.1 ≠ 0
  · rw [if_pos herr]
    exact ⟨hmem, fun hz => absurd hz hcode⟩
  · rw [if_neg herr]
    exact ⟨hin', hkeep⟩

/-- The walk over the directory keeps the invariant from the start of the range to its end. -/
theorem Level.range (h : Level top codes inv visit) (htop : top ≤ 2 ^ 32) (haligned : 4096 ∣ top)
    {addr : ℕ} {s : σ} (hlt : addr < top) (hinv : inv addr s) :
    ∃ r, walk 2 pgdAddrEnd visit top (top - addr) s (pgdOffsetK addr) addr = some r ∧ r.1 ∈ codes ∧
      (r.1 = 0 → inv top r.2) := by
  have hvisits : ∀ a u, a < top → inv a u →
      Visits 2 pgdAddrEnd visit pgdOffsetK top codes inv a u := by
    intro a s ha hs
    have hnext := nextEnd_pgdAddrEnd ha (show top < 2 ^ 63 by omega)
    constructor
    · exact hnext.range.1
    · exact hnext.range.2
    · intro hne
      have hgroup : pgdAddrEnd a top = (a / 2 ^ 21 + 1) * 2 ^ 21 := by
        rcases hnext.ends with hend | hend
        · exact absurd hend hne
        · exact hend
      rw [hgroup, pgdOffsetK, pgdOffsetK]
      omega
    · have hin : InGroup top a (pgdAddrEnd a top) :=
        ⟨hnext.range.1, hnext.group, hnext.aligned 12 (by decide) haligned, hnext.range.2⟩
      exact h a _ s hs hin
  exact walk_spec hvisits (top - addr) s addr le_rfl hlt hinv

/-- The middle directory is folded: its piece is that of the directory entry. -/
theorem pmdAddrEnd_group (htop : top ≤ 2 ^ 32) (addr fin : ℕ) (h : InGroup top addr fin) :
    pmdAddrEnd addr fin = fin := by
  have hlt := h.lt
  have hle := h.le_top
  have hgroup := h.group
  have hnext := nextEnd_pgdAddrEnd hlt (show fin < 2 ^ 63 by omega)
  rw [pmdAddrEnd]
  rcases hnext.ends with hend | hend
  · exact hend
  · have := hnext.range.2
    omega

/-- The loop over the entries of one table: each visit is that of one page. -/
theorem pte_walk {addr fin : ℕ} {s : σ} (hin : InGroup top addr fin) (haddr : 4096 ∣ addr)
    (hvisit : ∀ a u, addr ≤ a → a < fin → 4096 ∣ a → inv a u →
      ∃ r, visit u (pteIndex a) a (a + 4096) = some r ∧ r.1 ∈ codes ∧ (r.1 = 0 → inv (a + 4096) r.2))
    (hinv : inv addr s) :
    ∃ r, walk 1 pteAddrEnd visit fin (fin - addr) s (pteIndex addr) addr = some r ∧ r.1 ∈ codes ∧
      (r.1 = 0 → inv fin r.2) := by
  have hlt := hin.lt
  have hgroup := hin.group
  have hfin := hin.aligned
  have hvisits : ∀ a u, a < fin → (inv a u ∧ addr ≤ a ∧ 4096 ∣ a) →
      Visits 1 pteAddrEnd visit pteIndex fin codes (fun b w => inv b w ∧ addr ≤ b ∧ 4096 ∣ b) a u := by
    intro a u ha hu
    have hpiece : pteAddrEnd a fin = a + 4096 := rfl
    obtain ⟨hu, hle, hda⟩ := hu
    obtain ⟨r, hrun, hcode, hkeep⟩ := hvisit a u hle ha hda hu
    constructor
    · omega
    · omega
    · intro hne
      rw [hpiece] at hne ⊢
      rw [pteIndex_eq, pteIndex_eq]
      omega
    · rw [hpiece]
      exact ⟨r, hrun, hcode, fun hz => ⟨hkeep hz, by omega, by omega⟩⟩
  obtain ⟨r, hrun, hcode, hkeep⟩ :=
    walk_spec hvisits (fin - addr) s addr le_rfl hlt ⟨hinv, le_rfl, haddr⟩
  exact ⟨r, hrun, hcode, fun hz => (hkeep hz).1⟩

end Levels

/-- The address lies in the linear mapping: its directory entry names a section. -/
def Section (t : KernelTables) (v : ℕ) : Prop := t.pmd (pgdOffsetK v) / 2 % 2 = 1

/-- Directory entry `g` names a page table. -/
def HasTable (t : KernelTables) (g : ℕ) : Prop := t.pmd (2 * g) ≠ 0 ∧ t.pmd (2 * g) / 2 % 2 = 0

/-- No two directory entries share a table, and the pages left are no tables. -/
structure Sound (t : KernelTables) : Prop where
  /-- Different entries have different tables. -/
  apart : ∀ g h, HasTable t g → HasTable t h → pmdPage t (2 * g) = pmdPage t (2 * h) → g = h
  /-- The pages left are no tables. -/
  unused : ∀ g, HasTable t g → pmdPage t (2 * g) ∉ t.free
  /-- No page is left twice. -/
  nodup : t.free.Nodup
  /-- The pages left are in physical memory. -/
  frame_lt : ∀ frame ∈ t.free, frame < 2 ^ 20

/-- The words that lookups read outside the linear mapping are the same. -/
structure Keeps (t t' : KernelTables) : Prop where
  /-- The linear mapping is the same. -/
  sections : ∀ v, Section t' v ↔ Section t v
  /-- The words. -/
  words : ∀ v, ¬Section t v → pteWord t' v = pteWord t v

variable {t : KernelTables}

/-- An address outside the linear mapping whose directory entry is not empty has a table. -/
theorem hasTable_of {v : ℕ} (hsec : ¬Section t v) (hne : t.pmd (pgdOffsetK v) ≠ 0) :
    HasTable t (v / 2 ^ 21) := by
  rw [Section, pgdOffsetK] at hsec
  exact ⟨hne, by omega⟩

/-- The first word of a new table's directory entry. -/
theorem populated_word {frame : ℕ} (h : frame < 2 ^ 20) :
    wrap 32 ((frame * 4096 + pteHwtableOff) ||| pageKernelTable) = frame * 4096 + 2129 := by
  have hflags : pageKernelTable = 81 := by decide
  have hoff : pteHwtableOff = 2048 := rfl
  have hdvd : 2 ^ 11 ∣ frame * 4096 + 2048 := by omega
  rw [hflags, hoff, or_flags hdvd (by decide), wrap_of_lt (by omega)]

/-- The directory after a table was entered. -/
theorem populated_pmd {frame g : ℕ} (h : frame < 2 ^ 20) :
    (pmdPopulateKernel t (2 * g) frame).pmd (2 * g) = frame * 4096 + 2129 ∧
      ∀ k, k ≠ g → (pmdPopulateKernel t (2 * g) frame).pmd (2 * k) = t.pmd (2 * k) := by
  constructor
  · have hne : 2 * g ≠ 2 * g + 1 := by omega
    simp only [pmdPopulateKernel, Function.update_of_ne hne, Function.update_self]
    exact populated_word h
  · intro k hk
    have hne : 2 * k ≠ 2 * g + 1 := by omega
    have hne' : 2 * k ≠ 2 * g := by omega
    simp only [pmdPopulateKernel, Function.update_of_ne hne, Function.update_of_ne hne']

/-- Making sure that a directory entry has a table changes no word that a lookup reads. -/
theorem pteAllocKernel_spec (hs : Sound t) {g : ℕ} (hsec : t.pmd (2 * g) / 2 % 2 = 0) :
    pteAllocKernel t (2 * g) = none ∨
      ∃ t', pteAllocKernel t (2 * g) = some (pmdPage t' (2 * g), t') ∧ Sound t' ∧
        HasTable t' g ∧ Keeps t t' := by
  by_cases hempty : t.pmd (2 * g) = 0
  · cases hfree : t.free with
    | nil => exact .inl (by simp [pteAllocKernel, hempty, getFreePage, hfree])
    | cons frame rest =>
      have hlt : frame < 2 ^ 20 := hs.frame_lt frame (by simp [hfree])
      have hnodup : frame ∉ rest ∧ rest.Nodup := by
        have := hs.nodup
        rwa [hfree, List.nodup_cons] at this
      generalize hcleared : (⟨t.pmd, Function.update t.words frame fun _ => 0, rest⟩ : KernelTables) =
        cleared
      have hget : getFreePage t = some (frame, cleared) := by
        simp only [getFreePage, hfree, ← hcleared]
      obtain ⟨hown, hother⟩ := @populated_pmd cleared frame g hlt
      generalize hnew : pmdPopulateKernel cleared (2 * g) frame = t' at hown hother
      have hfreed : t'.free = rest := by rw [← hnew, ← hcleared]; rfl
      have hwords : t'.words = Function.update t.words frame fun _ => 0 := by
        rw [← hnew, ← hcleared]
        rfl
      have hpmd : ∀ k, k ≠ g → t'.pmd (2 * k) = t.pmd (2 * k) := by
        intro k hk
        rw [hother k hk, ← hcleared]
      have hpage : pmdPage t' (2 * g) = frame := by
        rw [pmdPage, hown]
        omega
      have hold : ∀ k, k ≠ g → HasTable t' k → HasTable t k ∧ pmdPage t' (2 * k) ≠ frame ∧
          pmdPage t' (2 * k) = pmdPage t (2 * k) := by
        intro k hk htab
        have heq : pmdPage t' (2 * k) = pmdPage t (2 * k) := by rw [pmdPage, pmdPage, hpmd k hk]
        rw [HasTable, hpmd k hk] at htab
        refine ⟨htab, ?_, heq⟩
        intro hf
        have := hs.unused k htab
        rw [← heq, hf, hfree] at this
        exact this List.mem_cons_self
      refine .inr ⟨t', ?_, ?_, ?_, ?_⟩
      · simp only [pteAllocKernel, hempty, if_true, hget, Option.map_some, hnew]
      · constructor
        · intro k l hk hl heq
          by_cases hkg : k = g
          · by_cases hlg : l = g
            · rw [hkg, hlg]
            · rw [hkg, hpage] at heq
              exact absurd heq.symm (hold l hlg hl).2.1
          · by_cases hlg : l = g
            · rw [hlg, hpage] at heq
              exact absurd heq (hold k hkg hk).2.1
            · obtain ⟨hk', _, hkp⟩ := hold k hkg hk
              obtain ⟨hl', _, hlp⟩ := hold l hlg hl
              rw [hkp, hlp] at heq
              exact hs.apart k l hk' hl' heq
        · intro k hk
          rw [hfreed]
          by_cases hkg : k = g
          · rw [hkg, hpage]
            exact hnodup.1
          · obtain ⟨hk', _, hkp⟩ := hold k hkg hk
            rw [hkp]
            intro hin
            exact hs.unused k hk' (by rw [hfree]; exact List.mem_cons_of_mem _ hin)
        · rw [hfreed]
          exact hnodup.2
        · intro f hf
          rw [hfreed] at hf
          exact hs.frame_lt f (by rw [hfree]; exact List.mem_cons_of_mem _ hf)
      · constructor
        · omega
        · omega
      · have hsections : ∀ v, Section t' v ↔ Section t v := by
          intro v
          simp only [Section, pgdOffsetK]
          by_cases hv : v / 2 ^ 21 = g
          · rw [hv, hown, hempty]
            omega
          · rw [hpmd _ hv]
        constructor
        · exact hsections
        · intro v hv
          have hv' : ¬Section t' v := by rwa [hsections]
          by_cases hvg : v / 2 ^ 21 = g
          · have hne : t'.pmd (2 * g) ≠ 0 := by omega
            simp only [pteWord, pgdOffsetK, hvg, hempty, if_true, hne, if_false, hpage, hwords,
              Function.update_self]
          · by_cases hz : t.pmd (2 * (v / 2 ^ 21)) = 0
            · simp only [pteWord, pgdOffsetK, hpmd _ hvg, hz, if_true]
            · have hne : t'.pmd (pgdOffsetK v) ≠ 0 := by rwa [pgdOffsetK, hpmd _ hvg]
              obtain ⟨_, hnot, heq⟩ := hold _ hvg (hasTable_of hv' hne)
              rw [heq] at hnot
              simp only [pteWord, pgdOffsetK, hpmd _ hvg, hz, if_false, hwords,
                Function.update_of_ne hnot, heq]
  · have htab : HasTable t g := ⟨hempty, hsec⟩
    refine .inr ⟨t, ?_, hs, htab, fun _ => Iff.rfl, fun _ _ => rfl⟩
    simp only [pteAllocKernel, hempty, if_false]

/-- A stored entry of a table is read back by the lookups of its page only. -/
theorem setPteExt_spec (hs : Sound t) {a : ℕ} (htab : HasTable t (a / 2 ^ 21)) (val : ℕ) :
    Sound (setPteExt t (pmdPage t (pgdOffsetK a)) (pteIndex a) val) ∧
      ∀ v, ¬Section t v →
        pteWord (setPteExt t (pmdPage t (pgdOffsetK a)) (pteIndex a) val) v =
          if v / 4096 = a / 4096 then wrap 32 val else pteWord t v := by
  constructor
  · exact ⟨hs.apart, hs.unused, hs.nodup, hs.frame_lt⟩
  · intro v hv
    have hpmd : (setPteExt t (pmdPage t (pgdOffsetK a)) (pteIndex a) val).pmd = t.pmd := rfl
    have hpage : ∀ k, pmdPage (setPteExt t (pmdPage t (pgdOffsetK a)) (pteIndex a) val) k =
        pmdPage t k := fun _ => rfl
    have hwords : (setPteExt t (pmdPage t (pgdOffsetK a)) (pteIndex a) val).words =
        Function.update t.words (pmdPage t (pgdOffsetK a))
          (Function.update (t.words (pmdPage t (pgdOffsetK a))) (pteIndex a) (wrap 32 val)) := rfl
    rw [pteWord, pteWord, hpmd, hpage, hwords]
    by_cases hz : t.pmd (pgdOffsetK v) = 0
    · have hne : v / 4096 ≠ a / 4096 := by
        intro heq
        have hgroup : v / 2 ^ 21 = a / 2 ^ 21 := by omega
        rw [pgdOffsetK, hgroup] at hz
        exact htab.1 hz
      rw [if_pos hz, if_pos hz, if_neg hne]
    · rw [if_neg hz, if_neg hz]
      have hvtab := hasTable_of hv hz
      by_cases hgroup : v / 2 ^ 21 = a / 2 ^ 21
      · have hoff : pgdOffsetK v = pgdOffsetK a := by rw [pgdOffsetK, pgdOffsetK, hgroup]
        rw [hoff, Function.update_self, pteIndex_eq, pteIndex_eq]
        by_cases heq : v / 4096 = a / 4096
        · rw [if_pos heq, heq, Function.update_self]
        · have hne : v / 4096 % 512 ≠ a / 4096 % 512 := by omega
          rw [if_neg heq, Function.update_of_ne hne]
      · have hframe : pmdPage t (pgdOffsetK v) ≠ pmdPage t (pgdOffsetK a) := by
          intro heq
          exact hgroup (hs.apart _ _ hvtab htab heq)
        have hne : v / 4096 ≠ a / 4096 := by
          intro heq
          exact hgroup (by omega)
        rw [Function.update_of_ne hframe, if_neg hne]

/-- The word of a page of the array, zero for `NULL`. -/
def pageWordAt (prot : Pgprot) (pages : ℕ → Option ℕ) (n : ℕ) : ℕ :=
  (pages n).getD 0 * 4096 + prot.val

/-- The tables and the running index when the pages from `start` to `addr` are mapped. -/
structure Mapped (t0 : KernelTables) (prot : Pgprot) (pages : ℕ → Option ℕ) (start addr : ℕ)
    (s : KernelTables × ℕ) : Prop where
  /-- The tables are sound. -/
  sound : Sound s.1
  /-- The linear mapping is as before. -/
  sections : ∀ v, Section s.1 v ↔ Section t0 v
  /-- The address is one of a page, not before the start. -/
  addr_le : start ≤ addr ∧ 4096 ∣ addr
  /-- The running index. -/
  count : start + s.2 * 4096 = addr
  /-- The pages so far were given. -/
  given : ∀ n, n < s.2 → ∃ page, pages n = some page
  /-- The words that lookups read. -/
  words : ∀ v, ¬Section t0 v → pteWord s.1 v =
    if start ≤ v ∧ v < addr then pageWordAt prot pages ((v - start) / 4096) else pteWord t0 v

section Mapping

variable {t0 : KernelTables} {prot : Pgprot} {pages : ℕ → Option ℕ} {start top : ℕ}

/-- Error codes are negative. -/
theorem ebusy_neg : -ebusy < 0 := by decide

/-- Error codes are negative. -/
theorem enomem_neg : -enomem < 0 := by decide

/-- The word of a page is stored whole. -/
theorem pageWord_wrap {page : ℕ} (h : page < 2 ^ 20) :
    wrap 32 (page * 4096 ||| prot.val) = page * 4096 + prot.val := by
  have hval := prot.val_lt
  have hdvd : 2 ^ 12 ∣ page * 4096 := by omega
  rw [or_flags hdvd hval, wrap_of_lt (by omega)]

/-- The next page of the array is entered at the address reached. -/
theorem Mapped.next {a frame page : ℕ} {u : KernelTables × ℕ} (hu : Mapped t0 prot pages start a u)
    (htab : HasTable u.1 (a / 2 ^ 21)) (hframe : pmdPage u.1 (pgdOffsetK a) = frame)
    (hget : pages u.2 = some page) (hlt : page < 2 ^ 20) :
    Mapped t0 prot pages start (a + 4096)
      (setPteExt u.1 frame (pteIndex a) (page * 4096 ||| prot.val), u.2 + 1) := by
  obtain ⟨hsound, hwords⟩ := setPteExt_spec hu.sound htab (page * 4096 ||| prot.val)
  rw [hframe, pageWord_wrap hlt] at hwords
  rw [hframe] at hsound
  have hcount := hu.count
  have hstart := hu.addr_le
  have hkeep : ∀ v, Section (setPteExt u.1 frame (pteIndex a) (page * 4096 ||| prot.val)) v ↔
      Section u.1 v := fun _ => Iff.rfl
  generalize setPteExt u.1 frame (pteIndex a) (page * 4096 ||| prot.val) = t'
    at hsound hwords hkeep ⊢
  have hsections : ∀ v, Section t' v ↔ Section t0 v := fun v => (hkeep v).trans (hu.sections v)
  have hcount' : start + (u.2 + 1) * 4096 = a + 4096 := by rw [Nat.succ_mul, ← hcount, Nat.add_assoc]
  constructor
  · exact hsound
  · exact hsections
  · omega
  · exact hcount'
  · intro n hn
    by_cases hlast : n = u.2
    · exact ⟨page, by rw [hlast, hget]⟩
    · have hn' : n < u.2 + 1 := hn
      exact hu.given n (by omega)
  · intro v hv
    have hv' : ¬Section u.1 v := by rwa [hu.sections]
    rw [hwords v hv', hu.words v hv]
    by_cases hhere : v / 4096 = a / 4096
    · have hidx : (v - start) / 4096 = u.2 := by omega
      rw [if_pos hhere, if_pos (by omega), pageWordAt, hidx, hget, Option.getD_some]
    · rw [if_neg hhere]
      by_cases hbefore : start ≤ v ∧ v < a
      · rw [if_pos hbefore, if_pos (by omega)]
      · rw [if_neg hbefore, if_neg (by omega)]

/-- The loop over the entries of one table. -/
theorem vmapPte_walk (hpages : ∀ n page, pages n = some page → page < 2 ^ 20)
    {addr fin : ℕ} {s : KernelTables × ℕ}
    (hs : Mapped t0 prot pages start addr s) (htab : HasTable s.1 (addr / 2 ^ 21))
    (hin : InGroup top addr fin) :
    ∃ r, walk 1 pteAddrEnd (vmapPte prot pages (pmdPage s.1 (pgdOffsetK addr))) fin (fin - addr) s
        (pteIndex addr) addr = some r ∧ r.1 ∈ {c : ℤ | c ≤ 0} ∧ (r.1 = 0 → Mapped t0 prot pages start fin r.2) := by
  have hgroup := hin.group
  generalize hpage : pmdPage s.1 (pgdOffsetK addr) = frame
  have hvisit : ∀ a u, addr ≤ a → a < fin → 4096 ∣ a →
      (Mapped t0 prot pages start a u ∧ u.1.pmd = s.1.pmd) →
      ∃ r, vmapPte prot pages frame u (pteIndex a) a (a + 4096) = some r ∧ r.1 ∈ {c : ℤ | c ≤ 0} ∧
        (r.1 = 0 → Mapped t0 prot pages start (a + 4096) r.2 ∧ r.2.1.pmd = s.1.pmd) := by
    intro a u hle ha hda hu
    obtain ⟨hu, hpmd⟩ := hu
    have hsame : a / 2 ^ 21 = addr / 2 ^ 21 := by omega
    have hframe : pmdPage u.1 (pgdOffsetK a) = frame := by
      rw [pmdPage, hpmd, pgdOffsetK, hsame, ← hpage, pmdPage, pgdOffsetK]
    have hutab : HasTable u.1 (a / 2 ^ 21) := by
      rw [HasTable, hpmd, hsame]
      exact htab
    rw [vmapPte]
    by_cases hused : u.1.words frame (pteIndex a) ≠ 0
    · rw [if_pos hused]
      exact ⟨_, rfl, ebusy_neg.le, fun hz => absurd hz ebusy_neg.ne⟩
    · rw [if_neg hused]
      cases hget : pages u.2 with
      | none => exact ⟨_, rfl, enomem_neg.le, fun hz => absurd hz enomem_neg.ne⟩
      | some page =>
        exact ⟨_, rfl, le_refl (0 : ℤ), fun _ => ⟨hu.next hutab hframe hget (hpages _ _ hget), hpmd⟩⟩
  obtain ⟨r, hrun, hcode, hkeep⟩ := pte_walk hin hs.addr_le.2 hvisit ⟨hs, rfl⟩
  exact ⟨r, hrun, hcode, fun hz => (hkeep hz).1⟩

/-- The level of the page tables maps its piece, or reports an error. -/
theorem vmapPteRange_level (hpages : ∀ n page, pages n = some page → page < 2 ^ 20)
    (hsec : ∀ v, start ≤ v → v < top → ¬Section t0 v) :
    Level top {c | c ≤ 0} (Mapped t0 prot pages start) (vmapPteRange prot pages) := by
  intro addr fin s hs hin
  have hlt := hin.lt
  have htop := hin.le_top
  have hnot : ¬Section s.1 addr := by
    rw [hs.sections]
    exact hsec addr hs.addr_le.1 (by omega)
  have hbit : s.1.pmd (2 * (addr / 2 ^ 21)) / 2 % 2 = 0 := by
    rw [Section, pgdOffsetK] at hnot
    omega
  rcases pteAllocKernel_spec hs.sound hbit with hnone | ⟨t', hsome, hsound, htab, hkeeps⟩
  · refine ⟨(-enomem, s), ?_, enomem_neg.le, fun hz => absurd hz enomem_neg.ne⟩
    rw [vmapPteRange, pgdOffsetK, hnone]
  · have hmapped : Mapped t0 prot pages start addr (t', s.2) := by
      have hsections : ∀ v, Section t' v ↔ Section t0 v := fun v =>
        (hkeeps.sections v).trans (hs.sections v)
      refine ⟨hsound, hsections, hs.addr_le, hs.count, hs.given, ?_⟩
      intro v hv
      have hv' : ¬Section s.1 v := by rwa [hs.sections]
      rw [hkeeps.words v hv', hs.words v hv]
    have hwalk := vmapPte_walk hpages hmapped htab hin
    have hrange : vmapPteRange prot pages s (pgdOffsetK addr) addr fin =
        walk 1 pteAddrEnd (vmapPte prot pages (pmdPage t' (pgdOffsetK addr))) fin (fin - addr)
          (t', s.2) (pteIndex addr) addr := by
      rw [vmapPteRange, pgdOffsetK, hsome]
    rw [hrange]
    exact hwalk

/-- `vmap_page_range_noflush` maps the range, or reports an error. -/
theorem vmapPageRange_spec (hpages : ∀ n page, pages n = some page → page < 2 ^ 20)
    (hs : Sound t0) (hstart : 4096 ∣ start) (hfin : 4096 ∣ top) (hlt : start < top)
    (htop : top ≤ 2 ^ 32) (hsec : ∀ v, start ≤ v → v < top → ¬Section t0 v) :
    ∃ ret t', vmapPageRangeNoflush prot pages t0 start top = some (ret, t') ∧
      (0 < ret → Mapped t0 prot pages start top (t', (top - start) / 4096) ∧
        ret = ((top - start) / 4096 : ℕ)) := by
  have hbegin : Mapped t0 prot pages start start (t0, 0) := by
    refine ⟨hs, fun _ => Iff.rfl, ⟨le_rfl, hstart⟩, by simp, fun n hn => by omega, ?_⟩
    intro v _
    rw [if_neg (by omega)]
  have hpmd : Level top {c | c ≤ 0} (Mapped t0 prot pages start) (vmapPmdRange prot pages) :=
    ((vmapPteRange_level hpages hsec).folded 1 (pmdAddrEnd_group htop)).mapped enomem_neg.ne enomem_neg.le
  have hpud : Level top {c | c ≤ 0} (Mapped t0 prot pages start) (vmapPudRange prot pages) :=
    (hpmd.folded 2 fun _ _ _ => rfl).mapped enomem_neg.ne enomem_neg.le
  obtain ⟨r, hrun, hcode, hkeep⟩ := hpud.range htop hfin hlt hbegin
  refine ⟨if r.1 ≠ 0 then r.1 else r.2.2, r.2.1, ?_, ?_⟩
  · rw [vmapPageRangeNoflush, hrun, Option.map_some]
  · by_cases herr : r.1 ≠ 0
    · rw [if_pos herr]
      intro hpos
      exact absurd hcode (not_le.mpr hpos)
    · rw [if_neg herr]
      intro _
      have hmapped := hkeep (by simpa using herr)
      have hcount : (top - start) / 4096 = r.2.2 := by
        have := hmapped.count
        omega
      rw [hcount]
      exact ⟨hmapped, rfl⟩

end Mapping

/-- The tables when the pages from `start` to `addr` are unmapped. -/
structure Unmapped (t0 : KernelTables) (start addr : ℕ) (t : KernelTables) : Prop where
  /-- The tables are sound. -/
  sound : Sound t
  /-- The directory is as before. -/
  pmd : t.pmd = t0.pmd
  /-- The address is one of a page, not before the start. -/
  addr_le : start ≤ addr ∧ 4096 ∣ addr
  /-- The words that lookups read. -/
  words : ∀ v, ¬Section t0 v →
    pteWord t v = if start ≤ v ∧ v < addr then 0 else pteWord t0 v

section Unmapping

variable {t0 : KernelTables} {start top : ℕ}

/-- Tables with one directory have the same linear mapping. -/
theorem section_congr {t : KernelTables} (h : t.pmd = t0.pmd) (v : ℕ) :
    Section t v ↔ Section t0 v := by
  rw [Section, Section, h]

/-- The next page is taken out of the tables. -/
theorem Unmapped.next {a frame : ℕ} {t : KernelTables} (hu : Unmapped t0 start a t)
    (htab : HasTable t (a / 2 ^ 21)) (hframe : pmdPage t (pgdOffsetK a) = frame) :
    Unmapped t0 start (a + 4096) (setPteExt t frame (pteIndex a) 0) := by
  obtain ⟨hsound, hwords⟩ := setPteExt_spec hu.sound htab 0
  rw [hframe] at hsound hwords
  have hstart := hu.addr_le
  constructor
  · exact hsound
  · exact hu.pmd
  · omega
  · intro v hv
    have hv' : ¬Section t v := by rwa [section_congr hu.pmd]
    rw [hwords v hv', hu.words v hv]
    by_cases hhere : v / 4096 = a / 4096
    · rw [if_pos hhere, if_pos (by omega)]
      rfl
    · rw [if_neg hhere]
      by_cases hbefore : start ≤ v ∧ v < a
      · rw [if_pos hbefore, if_pos (by omega)]
      · rw [if_neg hbefore, if_neg (by omega)]

/-- A directory entry that is empty is skipped: nothing is mapped there. -/
theorem Unmapped.skip {addr fin : ℕ} {t : KernelTables} (hu : Unmapped t0 start addr t)
    (hin : InGroup top addr fin) (hempty : t.pmd (pgdOffsetK addr) = 0) :
    Unmapped t0 start fin t := by
  have hlt := hin.lt
  have hgroup := hin.group
  have hstart := hu.addr_le
  constructor
  · exact hu.sound
  · exact hu.pmd
  · exact ⟨by omega, hin.aligned⟩
  · intro v hv
    rw [hu.words v hv]
    by_cases hhere : addr ≤ v ∧ v < fin
    · have hv : v / 2 ^ 21 = addr / 2 ^ 21 := by omega
      have hnone : pteWord t0 v = 0 := by
        rw [pgdOffsetK, hu.pmd] at hempty
        rw [pteWord, pgdOffsetK, hv, if_pos hempty]
      rw [if_neg (by omega), if_pos (by omega), hnone]
    · by_cases hbefore : start ≤ v ∧ v < addr
      · rw [if_pos hbefore, if_pos (by omega)]
      · rw [if_neg hbefore, if_neg (by omega)]

/-- A directory entry that is no section is not bad. -/
theorem pmdBad_of_not_section {t : KernelTables} {v : ℕ} (h : ¬Section t v) :
    VmapTables.pmdBad t (pgdOffsetK v) = false := by
  have hbit : t.pmd (pgdOffsetK v) &&& 2 = 2 * (t.pmd (pgdOffsetK v) / 2 % 2) := and_two_pow_eq _ 1
  rw [Section] at h
  simp only [VmapTables.pmdBad, decide_eq_false_iff_not, ne_eq, not_not]
  omega

/-- The level of the page tables unmaps its piece. -/
theorem vunmapPteRange_level (hsec : ∀ v, start ≤ v → v < top → ¬Section t0 v) :
    Level top {0} (Unmapped t0 start) vunmapPteRange := by
  intro addr fin t hu hin
  have hlt := hin.lt
  have htop := hin.le_top
  have hgroup := hin.group
  have hnot : ¬Section t addr := by
    rw [section_congr hu.pmd]
    exact hsec addr hu.addr_le.1 (by omega)
  rw [vunmapPteRange]
  by_cases hempty : t.pmd (pgdOffsetK addr) = 0
  · rw [if_pos hempty]
    exact ⟨_, rfl, rfl, fun _ => hu.skip hin hempty⟩
  · rw [if_neg hempty, pmdBad_of_not_section hnot]
    have htab := hasTable_of hnot hempty
    generalize hpage : pmdPage t (pgdOffsetK addr) = frame
    have hvisit : ∀ a u, addr ≤ a → a < fin → 4096 ∣ a → Unmapped t0 start a u →
        ∃ r, vunmapPte frame u (pteIndex a) a (a + 4096) = some r ∧ r.1 ∈ ({0} : Set ℤ) ∧
          (r.1 = 0 → Unmapped t0 start (a + 4096) r.2) := by
      intro a u hle ha hda hua
      have hsame : a / 2 ^ 21 = addr / 2 ^ 21 := by omega
      have hpmd : u.pmd = t.pmd := hua.pmd.trans hu.pmd.symm
      have hframe : pmdPage u (pgdOffsetK a) = frame := by
        rw [pmdPage, hpmd, pgdOffsetK, hsame, ← hpage, pmdPage, pgdOffsetK]
      have hutab : HasTable u (a / 2 ^ 21) := by
        rw [HasTable, hpmd, hsame]
        exact htab
      exact ⟨_, rfl, rfl, fun _ => hua.next hutab hframe⟩
    exact pte_walk hin hu.addr_le.2 hvisit hu

/-- `vunmap_page_range` takes the pages of the range out of the tables. -/
theorem vunmapPageRange_spec (hs : Sound t0) (hstart : 4096 ∣ start) (hfin : 4096 ∣ top)
    (hlt : start < top) (htop : top ≤ 2 ^ 32)
    (hsec : ∀ v, start ≤ v → v < top → ¬Section t0 v) :
    ∃ t', vunmapPageRange t0 start top = some t' ∧ Unmapped t0 start top t' := by
  have hbegin : Unmapped t0 start start t0 := by
    refine ⟨hs, rfl, ⟨le_rfl, hstart⟩, ?_⟩
    intro v _
    rw [if_neg (by omega)]
  have hpud : Level top {0} (Unmapped t0 start) vunmapPudRange :=
    ((vunmapPteRange_level hsec).folded 1 (pmdAddrEnd_group htop)).folded 2 fun _ _ _ => rfl
  obtain ⟨r, hrun, hcode, hkeep⟩ := hpud.range htop hfin hlt hbegin
  refine ⟨r.2, ?_, hkeep hcode⟩
  rw [vunmapPageRange, hrun, Option.map_some]

end Unmapping

/-- `vmalloc_to_page` depends on the word of the page table only. -/
theorem vmallocToPage_eq (t : KernelTables) (v : ℕ) :
    vmallocToPage t v = if pteWord t v % 2 = 1 then some (pteWord t v / 4096) else none := by
  have hbit : ∀ x : ℕ, x &&& lPtePresent = x % 2 := fun x => Nat.and_one_is_mod x
  rw [vmallocToPage, pteWord]
  by_cases hz : t.pmd (pgdOffsetK v) = 0
  · rw [if_pos hz, if_pos hz]
    rfl
  · rw [if_neg hz, if_neg hz]
    simp only [hbit]
    generalize t.words (pmdPage t (pgdOffsetK v)) (pteIndex v) = x
    by_cases hx : x % 2 = 1
    · rw [if_pos hx, if_pos (by omega)]
    · rw [if_neg hx, if_neg (by omega)]

/-- Addresses with one word have one page. -/
theorem vmallocToPage_congr {t t' : KernelTables} {v : ℕ} (h : pteWord t' v = pteWord t v) :
    vmallocToPage t' v = vmallocToPage t v := by
  rw [vmallocToPage_eq, vmallocToPage_eq, h]

/-- The page of an entered word. -/
theorem vmallocToPage_word {t : KernelTables} {prot : Pgprot} {v page : ℕ}
    (h : pteWord t v = page * 4096 + prot.val) : vmallocToPage t v = some page := by
  have hval := prot.val_lt
  have hodd := prot.present
  rw [vmallocToPage_eq, h, if_pos (by omega)]
  congr 1
  omega

/-- After a range was mapped its addresses have the pages of the array, and the others outside
the linear mapping what they had. -/
theorem Mapped.lookup {t0 t' : KernelTables} {prot : Pgprot} {pages : ℕ → Option ℕ}
    {start fin k : ℕ} (h : Mapped t0 prot pages start fin (t', k))
    (hsec : ∀ v, start ≤ v → v < fin → ¬Section t0 v) :
    (∀ n, n < k → vmallocToPage t' (start + n * 4096) = pages n) ∧
      ∀ v, ¬Section t0 v → ¬(start ≤ v ∧ v < fin) → vmallocToPage t' v = vmallocToPage t0 v := by
  have hcount : start + k * 4096 = fin := h.count
  constructor
  · intro n hn
    have hin : start ≤ start + n * 4096 ∧ start + n * 4096 < fin := by omega
    have hidx : (start + n * 4096 - start) / 4096 = n := by omega
    obtain ⟨page, hpage⟩ := h.given n hn
    have hword := h.words _ (hsec _ hin.1 hin.2)
    rw [if_pos hin, hidx, pageWordAt, hpage, Option.getD_some] at hword
    rw [hpage]
    exact vmallocToPage_word hword
  · intro v hv hout
    have hword := h.words v hv
    rw [if_neg hout] at hword
    exact vmallocToPage_congr hword

/-- After a range was unmapped its addresses have no page, and the others outside the linear
mapping what they had. -/
theorem Unmapped.lookup {t0 t' : KernelTables} {start fin : ℕ} (h : Unmapped t0 start fin t')
    {v : ℕ} (hv : ¬Section t0 v) :
    vmallocToPage t' v = if start ≤ v ∧ v < fin then none else vmallocToPage t0 v := by
  have hword := h.words v hv
  by_cases hin : start ≤ v ∧ v < fin
  · rw [if_pos hin] at hword ⊢
    rw [vmallocToPage_eq, hword]
    rfl
  · rw [if_neg hin] at hword ⊢
    exact vmallocToPage_congr hword

/-- Mapping, looking up and unmapping a range: a positive count is the number of pages, each
address of the range then has its page of the array, and unmapping takes the pages of the range
away. No other address outside the linear mapping changes. -/
theorem vmapPageRange_roundTrip (prot : Pgprot) (pages : ℕ → Option ℕ) (t : KernelTables)
    (start fin : ℕ) (hs : Sound t) (hpages : ∀ n page, pages n = some page → page < 2 ^ 20)
    (hstart : 4096 ∣ start) (hfin : 4096 ∣ fin) (hlt : start < fin) (htop : fin ≤ 2 ^ 32)
    (hsec : ∀ v, start ≤ v → v < fin → ¬Section t v) :
    ∃ ret t', vmapPageRangeNoflush prot pages t start fin = some (ret, t') ∧
      (0 < ret →
        ret = ((fin - start) / 4096 : ℕ) ∧
          (∀ n, n < (fin - start) / 4096 → vmallocToPage t' (start + n * 4096) = pages n) ∧
          (∀ v, ¬Section t v → ¬(start ≤ v ∧ v < fin) →
            vmallocToPage t' v = vmallocToPage t v) ∧
          ∃ t'', vunmapPageRange t' start fin = some t'' ∧
            ∀ v, ¬Section t v → vmallocToPage t'' v =
              if start ≤ v ∧ v < fin then none else vmallocToPage t' v) := by
  obtain ⟨ret, t', hrun, hpos⟩ := @vmapPageRange_spec t prot pages start fin hpages hs hstart hfin hlt
    htop hsec
  refine ⟨ret, t', hrun, fun hret => ?_⟩
  obtain ⟨hmapped, hcount⟩ := hpos hret
  obtain ⟨hinside, houtside⟩ := hmapped.lookup hsec
  have hsections : ∀ v, Section t' v ↔ Section t v := hmapped.sections
  have hsec' : ∀ v, start ≤ v → v < fin → ¬Section t' v := by
    intro v hv hv'
    rw [hsections]
    exact hsec v hv hv'
  obtain ⟨t'', hunmap, hunmapped⟩ :=
    vunmapPageRange_spec hmapped.sound hstart hfin hlt htop hsec'
  refine ⟨hcount, hinside, houtside, t'', hunmap, ?_⟩
  intro v hv
  exact hunmapped.lookup (by rwa [hsections])

/-- Tables without an entry, and two pages for new tables. -/
def emptyTables : KernelTables := ⟨fun _ => 0, fun _ _ => 0, [0x50400, 0x50401]⟩

/-- Two pages on both sides of a boundary of the directory. -/
theorem vmapPageRange_roundTrip_boundary :
    (vmapPageRangeNoflush ⟨0x45F, by decide, by decide⟩ (fun n => some (0x51000 + n % 2))
      emptyTables 0xE01FF000 0xE0201000).map Prod.fst = some 2 ∧
    ∃ ret t', vmapPageRangeNoflush ⟨0x45F, by decide, by decide⟩ (fun n => some (0x51000 + n % 2))
        emptyTables 0xE01FF000 0xE0201000 = some (ret, t') ∧
      (0 < ret →
        ret = ((0xE0201000 - 0xE01FF000) / 4096 : ℕ) ∧
          (∀ n, n < (0xE0201000 - 0xE01FF000) / 4096 →
            vmallocToPage t' (0xE01FF000 + n * 4096) = some (0x51000 + n % 2)) ∧
          (∀ v, ¬Section emptyTables v → ¬(0xE01FF000 ≤ v ∧ v < 0xE0201000) →
            vmallocToPage t' v = vmallocToPage emptyTables v) ∧
          ∃ t'', vunmapPageRange t' 0xE01FF000 0xE0201000 = some t'' ∧
            ∀ v, ¬Section emptyTables v → vmallocToPage t'' v =
              if 0xE01FF000 ≤ v ∧ v < 0xE0201000 then none else vmallocToPage t' v) := by
  refine ⟨by decide +kernel, vmapPageRange_roundTrip _ (fun n => some (0x51000 + n % 2)) emptyTables
    0xE01FF000 0xE0201000 ?_ ?_ (by decide) (by decide) (by decide) (by decide) ?_⟩
  · constructor
    · exact fun g _ hg => absurd rfl hg.1
    · exact fun g hg => absurd rfl hg.1
    · decide
    · decide
  · intro n page h
    simp only [Option.some.injEq] at h
    omega
  · intro v _ _
    simp [Section, emptyTables]

/-- Tables with one section of the linear mapping, and its first page left for a new table. -/
def sectionTables : KernelTables :=
  ⟨fun i => if i = 3074 then 0x5020040E else 0, fun _ _ => 0x5030045F, [0x50200]⟩

/-- The directory entries of these tables name no table. -/
theorem sectionTables_sound : Sound sectionTables := by
  have hnone : ∀ g, ¬HasTable sectionTables g := by
    intro g hg
    by_cases hone : 2 * g = 3074
    · simp [HasTable, sectionTables, hone] at hg
    · simp [HasTable, sectionTables, hone] at hg
  constructor
  · exact fun g _ hg => absurd hg (hnone g)
  · exact fun g hg => absurd hg (hnone g)
  · decide
  · decide

/-- The lookup of a linear address reads the first page of its section as a table, so it changes
when that page becomes the table of another range. -/
theorem vmapPageRange_linear : Sound sectionTables ∧
    (vmapPageRangeNoflush ⟨0x45F, by decide, by decide⟩ (fun _ => some 0x51000) sectionTables
      0xE0000000 0xE0001000).map (fun r => (r.1, vmallocToPage r.2 0xC0201000)) = some (1, none) ∧
    vmallocToPage sectionTables 0xC0201000 = some 0x50300 :=
  ⟨sectionTables_sound, by decide +kernel, by decide +kernel⟩

end BiscuitOS.VmapRoundTrip
