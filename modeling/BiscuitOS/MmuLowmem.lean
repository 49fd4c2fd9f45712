import BiscuitOS.MmuPieces
import BiscuitOS.MemblockTable

/-!
# The linear map

`map_lowmem` maps the regions of memory below a limit, one after the other.
The invariant says what the regions so far left behind: their translations,
empty groups above them, and the state of the group in which the last one
ends. It is kept by the next region unless that one needs pages in a group
whose first half is a section.
-/

namespace BiscuitOS.MmuLowmem

open MachineWord MemblockModel MmuModel MmuStores MmuTranslation MmuMapping MmuContract MmuPieces
open MemblockTable

/-- The distance from a physical address to its virtual one. -/
def linearOffset : ℕ := 0x70000000

/-- `phys_to_virt` of memory. -/
theorem physToVirt_eq {p : ℕ} (h : physOffset ≤ p) (hp : p < 2 ^ 32) : physToVirt p = p + linearOffset := by
  have hsub : wrapSub 64 p physOffset = p - physOffset := wrapSub_of_le (by omega) h
  rw [physToVirt, hsub, wrap]
  rw [physOffset] at h ⊢
  rw [pageOffset, linearOffset]
  omega

/-- The end of a region below the limit. -/
def cutEnd (t : MemblockType) (limit i : ℕ) : ℕ := min (Region.last (t.regions i)) limit

/-- A well formed table of pages, and a limit on a page. -/
structure LowmemTable (t : MemblockType) (limit : ℕ) : Prop where
  /-- The table is sorted, and its regions are apart. -/
  spaced : Spaced 0 t
  /-- The limit is a physical address. -/
  limit_lt : limit < 2 ^ 32
  /-- The limit lies on a page. -/
  limit_page : 4096 ∣ limit
  /-- The regions are pages of memory. -/
  pages : ∀ i < t.cnt, (t.regions i).size ≠ 0 →
    physOffset ≤ (t.regions i).base ∧ 4096 ∣ (t.regions i).base ∧ 4096 ∣ (t.regions i).size

/-- Tables without an entry at or above `PAGE_OFFSET`. -/
structure EmptyAbove (pages : EarlyPages) (st : Mmu) : Prop where
  /-- The words from `PAGE_OFFSET` on. -/
  empty : ∀ i < 4096, pageOffset / 2 ^ 20 ≤ i → st.pmd i = 0
  /-- The tables in use are not given again. -/
  fresh : Fresh pages st
  /-- There is memory for a table in every group. -/
  lasts : st.given + 2048 ≤ 2 ^ 20
  /-- Nothing was reported. -/
  bug : st.bug = false

/-- The flags of memory: it can be mapped by sections and by pages. -/
def MemoryFlags (types : MapType → MemType) : Prop :=
  (types .memory).protL1 ≠ 0 ∧ (types .memory).protSect % 4 = 2

/-- A byte is translated by the linear map. -/
def Linear (types : MapType → MemType) (st : Mmu) (p : ℕ) : Prop :=
  translation st (p + linearOffset) = some (.bySection p (types .memory).protSect) ∨
    translation st (p + linearOffset) = some (.byPage p (types .memory).protPte)

/-- Region `i` is mapped: it is not empty and starts below the limit. -/
def Reached (t : MemblockType) (limit i : ℕ) : Prop := (t.regions i).size ≠ 0 ∧ (t.regions i).base < limit

/-- Region `i` ends with the first half of a group, as a section, and the next region needs pages in the
second half. -/
def HalfThenPages (t : MemblockType) (limit i : ℕ) : Prop :=
  ∃ g, 2 ^ 21 ∣ g ∧ (t.regions i).base ≤ g ∧ cutEnd t limit i = g + 2 ^ 20 ∧
    g + 2 ^ 20 ≤ (t.regions (i + 1)).base ∧ (t.regions (i + 1)).base < g + 2 ^ 21 ∧
    (t.regions (i + 1)).base < limit ∧
    ¬((t.regions (i + 1)).base = g + 2 ^ 20 ∧ g + 2 ^ 21 ≤ cutEnd t limit (i + 1))

/-- Where the regions before `i` end, in virtual addresses. -/
def top (t : MemblockType) (limit : ℕ) : ℕ → ℕ
  | 0 => pageOffset
  | i + 1 => cutEnd t limit i + linearOffset

/-- The last of the regions before `i` ends with the first half of a group, as a section. -/
def HalfTop (t : MemblockType) (limit : ℕ) : ℕ → Prop
  | 0 => False
  | i + 1 => ∃ g, 2 ^ 21 ∣ g ∧ (t.regions i).base ≤ g ∧ cutEnd t limit i = g + 2 ^ 20

/-- The regions before `i` are mapped. -/
structure Built (pages : EarlyPages) (types : MapType → MemType) (t : MemblockType) (limit : ℕ) (st : Mmu)
    (i : ℕ) : Prop where
  /-- Their bytes. -/
  mapped : ∀ k < i, ∀ p, (t.regions k).base ≤ p → p < cutEnd t limit k → Linear types st p
  /-- The other addresses. -/
  unmapped : ∀ v, pageOffset ≤ v →
    (∀ k < i, ¬((t.regions k).base + linearOffset ≤ v ∧ v < cutEnd t limit k + linearOffset)) →
    translation st v = none
  /-- The groups above. -/
  clean : ∀ j < 4096, top t limit i ≤ j / 2 * 2 ^ 21 → st.pmd j = 0
  /-- The group in which they end. -/
  last : top t limit i % 2 ^ 21 ≠ 0 → LastGroup st (types .memory) (HalfTop t limit i) (top t limit i)
  /-- The pages still to be given. -/
  fresh : Fresh pages st
  /-- There is memory for the groups above. -/
  given : st.given + (2048 - ((top t limit i - 1) / 2 ^ 21 + 1)) ≤ 2 ^ 20
  /-- Nothing is reported. -/
  bug : st.bug = false

variable {pages : EarlyPages} {types : MapType → MemType} {t : MemblockType} {limit : ℕ} {st st' : Mmu}
  {i : ℕ}

/-- The arithmetic of a region that is mapped. -/
structure RegionFacts (t : MemblockType) (limit i : ℕ) : Prop where
  /-- It is not empty. -/
  lt : (t.regions i).base < cutEnd t limit i
  /-- It is behind the others, in the kernel's half. -/
  top_le : top t limit i ≤ (t.regions i).base + linearOffset
  /-- It is memory. -/
  phys : physOffset ≤ (t.regions i).base
  /-- It starts on a page. -/
  base_page : 4096 ∣ (t.regions i).base
  /-- It ends on a page. -/
  end_page : 4096 ∣ cutEnd t limit i
  /-- The kernel's half. -/
  top_pos : pageOffset ≤ top t limit i

/-- Regions below a mapped one are mapped. -/
theorem reached_before (h : LowmemTable t limit) (hi : i < t.cnt) (hr : Reached t limit i) {k : ℕ}
    (hk : k < i) : Reached t limit k := by
  have hfilled := h.spaced.filled k (by omega) (by omega)
  have hapart := h.spaced.apart_lt hk hi
  have hlast : (t.regions k).base ≤ Region.last (t.regions k) := Nat.le_add_right _ _
  exact ⟨by omega, by have := hr.2; omega⟩

/-- The facts of a mapped region. -/
theorem regionFacts (h : LowmemTable t limit) (hi : i < t.cnt) (hr : Reached t limit i) :
    RegionFacts t limit i := by
  obtain ⟨hphys, hb, hs⟩ := h.pages i hi hr.1
  have hlimit := h.limit_page
  have hlt := hr.2
  have hsize := hr.1
  have hend : 4096 ∣ cutEnd t limit i := by
    rw [cutEnd, Region.last]
    rcases Nat.le_total ((t.regions i).base + (t.regions i).size) limit with hle | hle
    · rw [Nat.min_eq_left hle]
      exact Nat.dvd_add hb hs
    · rw [Nat.min_eq_right hle]
      exact hlimit
  have hcut : (t.regions i).base < cutEnd t limit i := by
    rw [cutEnd, Region.last]
    omega
  have htop : pageOffset ≤ top t limit i ∧ top t limit i ≤ (t.regions i).base + linearOffset := by
    cases i with
    | zero =>
      rw [physOffset] at hphys
      rw [top, pageOffset, linearOffset]
      omega
    | succ k =>
      have hk := reached_before h hi hr (Nat.lt_succ_self k)
      have hapart := h.spaced.apart k hi
      obtain ⟨hphysk, -, -⟩ := h.pages k (by omega) hk.1
      have hltk := hk.2
      have hsizek := hk.1
      rw [physOffset] at hphysk
      rw [Region.last] at hapart
      rw [top, cutEnd, Region.last, pageOffset, linearOffset]
      omega
  exact ⟨hcut, htop.2, hphys, hb, hend, htop.1⟩

/-- What `map_lowmem` asks `create_mapping` to map. -/
def regionDesc (t : MemblockType) (limit i : ℕ) : MapDesc :=
  ⟨physToVirt (t.regions i).base, (t.regions i).base >>> 12, cutEnd t limit i - (t.regions i).base, .memory⟩

/-- The loop that maps a region. -/
theorem createMapping_region (hf : RegionFacts t limit i) (hm : MemoryFlags types)
    (hbelow : cutEnd t limit i ≤ 0x90000000) (fuel : ℕ) :
    createMapping pages types st (regionDesc t limit i) fuel =
      pgdsLoop pages st (((t.regions i).base + linearOffset) / 2 ^ 21) ((t.regions i).base + linearOffset)
        (cutEnd t limit i + linearOffset) (t.regions i).base (types .memory) fuel fuel := by
  have hlt := hf.lt
  have hphys := hf.phys
  have hbase := hf.base_page
  have hend := hf.end_page
  have hvirt := physToVirt_eq hphys (by omega)
  have hoff : linearOffset = 0x70000000 := rfl
  have hpo : physOffset = 0x50000000 := rfl
  have hshift : (t.regions i).base >>> 12 = (t.regions i).base / 4096 := Nat.shiftRight_eq_div_pow _ _
  have hacc : Accepted types (regionDesc t limit i) := by
    refine ⟨?_, ?_, ?_, ?_, fun hu => hm.1 hu.1⟩
    · dsimp only [regionDesc]
      omega
    · dsimp only [regionDesc]
      rw [hshift]
      omega
    · dsimp only [regionDesc]
      rw [hvirt]
      omega
    · dsimp only [regionDesc]
      have htask : taskSize = 0xBF000000 := by decide
      rw [hvirt, htask]
      omega
  have hstart : rangeStart (regionDesc t limit i) = (t.regions i).base + linearOffset := by
    dsimp only [rangeStart, regionDesc]
    rw [hvirt]
    omega
  have hlength : rangeStart (regionDesc t limit i) + roundedLength (regionDesc t limit i) =
      cutEnd t limit i + linearOffset := by
    rw [hstart]
    dsimp only [roundedLength, regionDesc]
    rw [hvirt]
    omega
  have hps : physStart (regionDesc t limit i) = (t.regions i).base := by
    dsimp only [physStart, regionDesc]
    rw [hshift]
    omega
  rw [createMapping_accepted hacc, hlength, hstart, hps]
  rfl

/-- Region `i` needs pages where the region before it left a section. -/
def Blocked (t : MemblockType) (limit : ℕ) : ℕ → Prop
  | 0 => False
  | i + 1 => HalfThenPages t limit i

/-- The regions before `i` end in the middle of a group. -/
theorem HalfTop.top_mod (h : HalfTop t limit i) : top t limit i % 2 ^ 21 = 2 ^ 20 := by
  cases i with
  | zero => exact h.elim
  | succ k =>
    obtain ⟨g, hg, -, hend⟩ := h
    rw [top, hend, linearOffset]
    omega

/-- A region is blocked in the second half of the group, unless a section fills it. -/
theorem blocked_iff (hf : RegionFacts t limit i) (hr : Reached t limit i) :
    Blocked t limit i ↔ HalfTop t limit i ∧
      (t.regions i).base + linearOffset < (top t limit i / 2 ^ 21 + 1) * 2 ^ 21 ∧
      ¬((t.regions i).base + linearOffset = top t limit i ∧
        (top t limit i / 2 ^ 21 + 1) * 2 ^ 21 ≤ cutEnd t limit i + linearOffset) := by
  have hle := hf.top_le
  have hlimit := hr.2
  cases i with
  | zero => exact ⟨fun h => h.elim, fun h => h.1.elim⟩
  | succ k =>
    have hoff : linearOffset = 896 * 2 ^ 21 := rfl
    constructor
    · rintro ⟨g, hg, hbase, hend, hlo, hhi, -, hne⟩
      have htop : top t limit (k + 1) = g + 2 ^ 20 + linearOffset := by rw [top, hend]
      rw [htop]
      exact ⟨⟨g, hg, hbase, hend⟩, by omega, by omega⟩
    · rintro ⟨⟨g, hg, hbase, hend⟩, hlt, hne⟩
      have htop : top t limit (k + 1) = g + 2 ^ 20 + linearOffset := by rw [top, hend]
      rw [htop] at hlt hne hle
      exact ⟨g, hg, hbase, hend, by omega, by omega, hlimit, by omega⟩

/-- The last piece of a range that ends inside a group, on aligned addresses. -/
theorem bySections_last {s fin phys : ℕ} (hlt : s < fin) (hmod : fin % 2 ^ 21 ≠ 0)
    (hphys : phys % 2 ^ 20 = s % 2 ^ 20) :
    BySections s fin phys (fin - 1) ↔ s ≤ fin / 2 ^ 21 * 2 ^ 21 ∧ fin % 2 ^ 21 = 2 ^ 20 := by
  have hgroup : (fin - 1) / 2 ^ 21 = fin / 2 ^ 21 := by omega
  have hend : pieceEnd fin (fin - 1) = fin := pieceEnd_last le_rfl
  have hstart : pieceStart s (fin - 1) = max s (fin / 2 ^ 21 * 2 ^ 21) := by rw [pieceStart, hgroup]
  rw [BySections, hend, hstart, Sections]
  rcases Nat.le_total s (fin / 2 ^ 21 * 2 ^ 21) with h | h
  · rw [Nat.max_eq_right h]
    constructor
    · rintro ⟨h1, h2, h3⟩
      omega
    · rintro ⟨-, h2⟩
      omega
  · rw [Nat.max_eq_left h, Nat.sub_self, Nat.add_zero]
    constructor
    · rintro ⟨h1, h2, h3⟩
      omega
    · rintro ⟨h1, h2⟩
      omega

/-- The end of region `i`, as the last piece sees it. -/
theorem halfTop_succ (hf : RegionFacts t limit i)
    (hmod : (cutEnd t limit i + linearOffset) % 2 ^ 21 ≠ 0) :
    BySections ((t.regions i).base + linearOffset) (cutEnd t limit i + linearOffset) (t.regions i).base
      (cutEnd t limit i + linearOffset - 1) ↔ HalfTop t limit (i + 1) := by
  have hlt := hf.lt
  have hoff : linearOffset = 896 * 2 ^ 21 := rfl
  rw [bySections_last (by omega) hmod (by omega), HalfTop]
  constructor
  · rintro ⟨h1, h2⟩
    exact ⟨cutEnd t limit i / 2 ^ 21 * 2 ^ 21, by omega, by omega, by omega⟩
  · rintro ⟨g, hg, hbase, hend⟩
    omega

/-- The first piece of a region in the group where the regions before it end. -/
theorem allocInitSection_shared {next : ℕ} (hb : Built pages types t limit st i)
    (hf : RegionFacts t limit i) (hr : Reached t limit i) (hm : MemoryFlags types)
    (hbelow : cutEnd t limit i ≤ 0x90000000) (hfree : ¬Blocked t limit i)
    (hshared : ((t.regions i).base + linearOffset) / 2 ^ 21 * 2 ^ 21 < top t limit i)
    (hn : NextEnd ((t.regions i).base + linearOffset) (cutEnd t limit i + linearOffset) next)
    {fuel : ℕ} (hfuel : 512 ≤ fuel) :
    ∃ st', allocInitSection pages st (((t.regions i).base + linearOffset) / 2 ^ 21)
        ((t.regions i).base + linearOffset) next (wrap 32 (t.regions i).base) (types .memory) fuel = some st' ∧
      PieceDone pages st st' (types .memory) (((t.regions i).base + linearOffset) / 2 ^ 21)
        ((t.regions i).base + linearOffset) next (wrap 32 (t.regions i).base) ∧
      (next % 2 ^ 21 ≠ 0 → LastGroup st' (types .memory)
        (Sections ((t.regions i).base + linearOffset) next (wrap 32 (t.regions i).base)) next) ∧
      st'.given = st.given := by
  have hoff : linearOffset = 896 * 2 ^ 21 := rfl
  have hlt := hf.lt
  have htop := hf.top_le
  have hbase := hf.base_page
  have hwrap : wrap 32 (t.regions i).base = (t.regions i).base := wrap_of_lt (by omega)
  rw [hwrap]
  obtain ⟨⟨hlo, hhi⟩, hgroup, hends, haligned⟩ := hn
  generalize hs : (t.regions i).base + linearOffset = s at *
  generalize hfin : cutEnd t limit i + linearOffset = fin at *
  obtain ⟨g, hg⟩ : ∃ g, s / 2 ^ 21 = g := ⟨_, rfl⟩
  rw [hg] at hgroup hends hshared ⊢
  have htopg : top t limit i / 2 ^ 21 = g := by omega
  by_cases hsect : Sections s next (t.regions i).base
  · obtain ⟨st', m, hrun, hd, hmn⟩ := @allocInitSection_sections pages st (types .memory) g _ _ _
      fuel (by omega) hsect (by omega) hlo hgroup (by omega) hfuel
    refine ⟨st', hrun, sectionsPiece_any pages hd hsect hmn (by omega) hgroup (by omega) hb.fresh,
      fun hmod => ?_, hd.given⟩
    obtain ⟨h1, h2, -⟩ := hsect
    omega
  · have hnothalf : ¬HalfTop t limit i := by
      intro hhalf
      have hmid := hhalf.top_mod
      refine hfree ((blocked_iff hf hr).mpr ⟨hhalf, by omega, ?_⟩)
      rintro ⟨heq, hle⟩
      refine hsect ⟨by omega, ?_, by omega⟩
      omega
    have htable := (hb.last (by omega)).2 hnothalf
    rw [htopg] at htable
    have hdfin : 2 ^ 12 ∣ fin := by
      have := hf.end_page
      omega
    have hdn : 4096 ∣ next := haligned 12 (by decide) hdfin
    obtain ⟨st', hrun, hd, htable', hgiven⟩ := @pagesPiece_table _ _ (types .memory) g s next _
      ((t.regions i).base) fuel (by omega) htable hb.fresh htop (by omega) hlo hgroup (by omega) hdn
      hbase hsect hm.1 hfuel
    refine ⟨st', ?_, hd, fun hmod => ⟨fun h => absurd h hsect, fun _ => ?_⟩, hgiven⟩
    · rw [allocInitSection, if_neg fun h => hsect (sectionMask_eq_zero.mp h)]
      exact hrun
    · rw [show next / 2 ^ 21 = g by omega]
      exact htable'

/-- The groups behind a region's first are empty. -/
theorem Built.clean_behind (hb : Built pages types t limit st i) {g : ℕ} (hg : top t limit i ≤ g * 2 ^ 21)
    {st1 : Mmu} {h : ℕ} (hst : ∀ j, j / 2 ≠ h → st1.pmd j = st.pmd j) (hh : h < g) {fin : ℕ}
    (hfin : fin ≤ 2 ^ 32) (j : ℕ) (h1 : g ≤ j / 2) (h2 : j / 2 ≤ (fin - 1) / 2 ^ 21) : st1.pmd j = 0 := by
  rw [hst j (by omega)]
  exact hb.clean j (by omega) (hg.trans (Nat.mul_le_mul_right _ h1))

/-- The loop of `create_mapping` on the next region, when nothing blocks it. -/
theorem pgdsLoop_region (hb : Built pages types t limit st i) (hf : RegionFacts t limit i)
    (hr : Reached t limit i) (hm : MemoryFlags types) (hbelow : cutEnd t limit i ≤ 0x90000000)
    (hfree : ¬Blocked t limit i) {fuel : ℕ} (hfuel : 4096 ≤ fuel) :
    ∃ st', pgdsLoop pages st (((t.regions i).base + linearOffset) / 2 ^ 21)
        ((t.regions i).base + linearOffset) (cutEnd t limit i + linearOffset) (t.regions i).base
        (types .memory) fuel fuel = some st' ∧
      MappingDone pages st st' (types .memory) ((t.regions i).base + linearOffset)
        (cutEnd t limit i + linearOffset) (t.regions i).base ∧
      st'.given + ((top t limit i - 1) / 2 ^ 21 + 1) ≤
        st.given + ((cutEnd t limit i + linearOffset - 1) / 2 ^ 21 + 1) := by
  have hoff : linearOffset = 896 * 2 ^ 21 := rfl
  have hlt := hf.lt
  have htop := hf.top_le
  have hpos := hf.top_pos
  have hbase := hf.base_page
  have hend := hf.end_page
  have hgiven := hb.given
  have hpo : pageOffset = 0xC0000000 := rfl
  have hl1 : (types .memory).protL1 = 0 → Sections ((t.regions i).base + linearOffset)
      (cutEnd t limit i + linearOffset) (t.regions i).base := fun h => absurd h hm.1
  by_cases hshared : ((t.regions i).base + linearOffset) / 2 ^ 21 * 2 ^ 21 < top t limit i
  · have hsmall : cutEnd t limit i + linearOffset < 2 ^ 63 := by omega
    have hn := @nextEnd_pgdAddrEnd ((t.regions i).base + linearOffset)
      (cutEnd t limit i + linearOffset) (by omega) hsmall
    obtain ⟨f, rfl⟩ : ∃ f, fuel = f + 1 := ⟨fuel - 1, by omega⟩
    obtain ⟨st1, hrun, hd, hlast, hsame⟩ := allocInitSection_shared hb hf hr hm hbelow hfree hshared hn
      (show 512 ≤ f + 1 by omega)
    obtain ⟨g, hg⟩ : ∃ g, ((t.regions i).base + linearOffset) / 2 ^ 21 = g := ⟨_, rfl⟩
    rw [hg] at hrun hd hshared ⊢
    have htopg : (top t limit i - 1) / 2 ^ 21 = g := by omega
    obtain ⟨st', hrun', hmd, hgl⟩ := @pgdsLoop_piece pages _ _ _ _ _ _ f _ _ _ hg (by omega) rfl hn
      hrun hd hlast
      fun hltfin => by
        have hgroup' : (g + 1) * 2 ^ 21 / 2 ^ 21 = g + 1 := Nat.mul_div_cancel _ (by decide)
        have hclean := @Built.clean_behind _ _ _ _ _ _ hb (g + 1) (by omega) st1 _ hd.pmd_other
          (Nat.lt_succ_self g) (cutEnd t limit i + linearOffset) (by omega)
        have hloop := @pgdsLoop_empty pages st1 (types .memory) (cutEnd t limit i + linearOffset)
          (f + 1) f ((g + 1) * 2 ^ 21)
          ((t.regions i).base + ((g + 1) * 2 ^ 21 - ((t.regions i).base + linearOffset))) (by omega)
          (by omega) (by omega) hltfin (by omega) (by omega) (fun j h1 h2 => hclean j (by omega) h2)
          hd.fresh (by omega) (fun h => absurd h hm.1) (by omega)
        rwa [hgroup'] at hloop
    exact ⟨st', hrun', hmd, by omega⟩
  · obtain ⟨st', hrun, hmd⟩ := @pgdsLoop_empty pages st (types .memory)
      (cutEnd t limit i + linearOffset) fuel fuel ((t.regions i).base + linearOffset)
      ((t.regions i).base) (by omega) (by omega) (by omega) (by omega) (by omega) hbase
      (fun j h1 h2 => hb.clean j (by omega) (by omega)) hb.fresh (by omega) hl1 (by omega)
    have hgl := hmd.given_le
    exact ⟨st', hrun, hmd, by omega⟩

/-- The next region keeps the invariant. -/
theorem Built.succ (hb : Built pages types t limit st i) (hf : RegionFacts t limit i)
    (hr : Reached t limit i) (hm : MemoryFlags types) (hbelow : cutEnd t limit i ≤ 0x90000000)
    (hmd : MappingDone pages st st' (types .memory) ((t.regions i).base + linearOffset)
      (cutEnd t limit i + linearOffset) (t.regions i).base)
    (hgl : st'.given + ((top t limit i - 1) / 2 ^ 21 + 1) ≤
      st.given + ((cutEnd t limit i + linearOffset - 1) / 2 ^ 21 + 1))
    (hends : ∀ k < i, cutEnd t limit k + linearOffset ≤ top t limit i) :
    Built pages types t limit st' (i + 1) := by
  have hoff : linearOffset = 896 * 2 ^ 21 := rfl
  have hpo : pageOffset = 0xC0000000 := rfl
  have hlt := hf.lt
  have htop := hf.top_le
  have hpos := hf.top_pos
  have hgiven := hb.given
  refine ⟨?_, ?_, ?_, ?_, hmd.fresh, ?_, hmd.bug.trans hb.bug⟩
  · intro k hk p hp hpe
    rcases Nat.lt_succ_iff_lt_or_eq.mp hk with hki | rfl
    · have hk' := hends k hki
      have hold := hb.mapped k hki p hp hpe
      rw [Linear, hmd.outside _ (by omega)]
      exact hold
    · have hi := hmd.inside (p + linearOffset) (by omega) (by omega)
      have hphys : (t.regions k).base + (p + linearOffset - ((t.regions k).base + linearOffset)) = p := by
        omega
      rw [hphys, Nat.mod_eq_of_lt (by omega)] at hi
      rcases @target_cases (types .memory)
        (pieceStart ((t.regions k).base + linearOffset) (p + linearOffset))
        (pieceEnd (cutEnd t limit k + linearOffset) (p + linearOffset))
        ((t.regions k).base + (pieceStart ((t.regions k).base + linearOffset) (p + linearOffset) - ((t.regions k).base + linearOffset)))
        p with ⟨-, -, he⟩ | ⟨-, hne, -⟩ | ⟨-, he⟩
      · exact Or.inl (hi.trans he)
      · exact absurd hm.2 hne
      · exact Or.inr (hi.trans he)
  · intro v hv hout
    rw [hmd.outside v (hout i (Nat.lt_succ_self i))]
    exact hb.unmapped v hv fun k hk => hout k (by omega)
  · intro j hj hle
    rw [top] at hle
    rw [hmd.pmd_other j (by omega)]
    exact hb.clean j hj (by omega)
  · intro hmod
    rw [top] at hmod ⊢
    obtain ⟨h1, h2⟩ := hmd.last hmod
    have hiff := halfTop_succ hf hmod
    exact ⟨fun h => h1 (hiff.mpr h), fun h => h2 fun hs => h (hiff.mp hs)⟩
  · rw [top]
    omega

/-- A blocked region is reported. -/
theorem createMapping_blocked (hb : Built pages types t limit st i) (hf : RegionFacts t limit i)
    (hr : Reached t limit i) (hm : MemoryFlags types) (hbelow : cutEnd t limit i ≤ 0x90000000)
    (hblocked : Blocked t limit i) {fuel : ℕ}
    (h : createMapping pages types st (regionDesc t limit i) fuel = some st') : st'.bug = true := by
  have hoff : linearOffset = 896 * 2 ^ 21 := rfl
  have hlt := hf.lt
  have htop := hf.top_le
  obtain ⟨hhalf, hlo, hne⟩ := (blocked_iff hf hr).mp hblocked
  have hmid := hhalf.top_mod
  have hword := ((hb.last (by omega)).1 hhalf).1
  rw [createMapping_region hf hm hbelow] at h
  cases fuel with
  | zero => cases h
  | succ f =>
    have hsmall : cutEnd t limit i + linearOffset < 2 ^ 63 := by omega
    obtain ⟨⟨h1, h2⟩, hgroup, hends, -⟩ := @nextEnd_pgdAddrEnd ((t.regions i).base + linearOffset)
      (cutEnd t limit i + linearOffset) (by omega) hsmall
    rw [pgdsLoop, Option.bind_eq_some_iff] at h
    obtain ⟨st1, hst1, h⟩ := h
    generalize pgdAddrEnd ((t.regions i).base + linearOffset) (cutEnd t limit i + linearOffset) = next at *
    have hg : ((t.regions i).base + linearOffset) / 2 ^ 21 = top t limit i / 2 ^ 21 := by omega
    rw [hg] at hst1 hgroup hends
    have hsect : ¬Sections ((t.regions i).base + linearOffset) next (wrap 32 (t.regions i).base) := by
      rintro ⟨ha, hn, -⟩
      omega
    have hb1 := allocInitSection_half (by omega) (hword.trans hm.2) hsect hst1
    by_cases hdone : next = cutEnd t limit i + linearOffset
    · rw [if_pos hdone, Option.some_inj] at h
      exact h ▸ hb1
    · rw [if_neg hdone] at h
      exact pgdsLoop_bug hb1 h

/-- A step of the loop over the regions. -/
theorem lowmemLoop_reached (ht : LowmemTable t limit) (hi : i < t.cnt) (hr : Reached t limit i)
    (fuel n : ℕ) :
    lowmemLoop pages types t limit fuel st i (n + 1) =
      (createMapping pages types st (regionDesc t limit i) fuel).bind
        fun st => lowmemLoop pages types t limit fuel st (i + 1) n := by
  have hf := regionFacts ht hi hr
  have hfit := ht.spaced.fits i hi
  have hlt := hf.lt
  have hle : (t.regions i).base ≤ Region.last (t.regions i) := Nat.le_add_right _ _
  have hstart : wrap 32 (t.regions i).base = (t.regions i).base := wrap_of_lt (by omega)
  have hlast : wrap 32 ((t.regions i).base + (t.regions i).size) = Region.last (t.regions i) :=
    wrap_of_lt hfit
  have hcut : (if limit < Region.last (t.regions i) then limit else Region.last (t.regions i)) =
      cutEnd t limit i := by
    rw [cutEnd]
    split
    · rename_i h
      exact (Nat.min_eq_right h.le).symm
    · rename_i h
      exact (Nat.min_eq_left (not_lt.mp h)).symm
  rw [lowmemLoop, hstart, hlast, hcut, if_neg (not_le.mpr hlt)]
  rfl

/-- The loop over the regions stops at one that is not reached. -/
theorem lowmemLoop_stop (ht : LowmemTable t limit) (hi : i < t.cnt) (hr : ¬Reached t limit i)
    (fuel n : ℕ) : lowmemLoop pages types t limit fuel st i (n + 1) = some st := by
  have hfit := ht.spaced.fits i hi
  have hle : (t.regions i).base ≤ Region.last (t.regions i) := Nat.le_add_right _ _
  have hstart : wrap 32 (t.regions i).base = (t.regions i).base := wrap_of_lt (by omega)
  have hlast : wrap 32 ((t.regions i).base + (t.regions i).size) = Region.last (t.regions i) :=
    wrap_of_lt hfit
  rw [lowmemLoop, hstart, hlast]
  refine if_pos ?_
  rw [Reached, not_and_or, not_not, not_lt] at hr
  have hl : Region.last (t.regions i) = (t.regions i).base + (t.regions i).size := rfl
  split
  · omega
  · omega

/-- Regions end where the next ones may start. -/
theorem cutEnd_le_top (ht : LowmemTable t limit) (hi : i ≤ t.cnt) {k : ℕ} (hk : k < i) :
    cutEnd t limit k + linearOffset ≤ top t limit i := by
  obtain ⟨j, rfl⟩ : ∃ j, i = j + 1 := ⟨i - 1, by omega⟩
  rcases Nat.lt_succ_iff_lt_or_eq.mp hk with hkj | rfl
  · have hapart := ht.spaced.apart_lt hkj (show j < t.cnt by omega)
    have hle : (t.regions j).base ≤ Region.last (t.regions j) := Nat.le_add_right _ _
    rw [top, cutEnd, cutEnd]
    omega
  · exact le_rfl

/-- A reported `BUG_ON` stays in the loop over the regions. -/
theorem lowmemLoop_bug {n fuel : ℕ} (hb : st.bug = true)
    (h : lowmemLoop pages types t limit fuel st i n = some st') : st'.bug = true := by
  induction n generalizing st i with
  | zero => exact Option.some_inj.mp h ▸ hb
  | succ n ih =>
    rw [lowmemLoop] at h
    split at h
    · split at h
      · exact Option.some_inj.mp h ▸ hb
      · obtain ⟨st1, hst1, h⟩ := Option.bind_eq_some_iff.mp h
        exact ih (createMapping_bug hb hst1) h
    · split at h
      · exact Option.some_inj.mp h ▸ hb
      · obtain ⟨st1, hst1, h⟩ := Option.bind_eq_some_iff.mp h
        exact ih (createMapping_bug hb hst1) h

/-- The regions end below the end of the address space, and none is blocked by the one before. -/
structure Mappable (t : MemblockType) (limit : ℕ) : Prop where
  /-- `phys_to_virt` of memory below the limit has 32 bits. -/
  below : ∀ i < t.cnt, Reached t limit i → cutEnd t limit i ≤ 0x90000000
  /-- No region ends with the first half of a group, as a section, while the next one needs pages in the
  second half. -/
  apart : ∀ i, i + 1 < t.cnt → ¬HalfThenPages t limit i

/-- `map_lowmem` returns without a report, memory below the limit is translated to itself, and no other
physical address is. -/
def Covers (pages : EarlyPages) (types : MapType → MemType) (t : MemblockType) (limit : ℕ) (st : Mmu) : Prop :=
  ∃ n, ∀ fuel, n ≤ fuel → ∃ st', mapLowmem pages types t limit st fuel = some st' ∧ st'.bug = false ∧
    (∀ p, p ∈ bytes t → p < limit →
      translation st' (physToVirt p) = some (.bySection p (types .memory).protSect) ∨
      translation st' (physToVirt p) = some (.byPage p (types .memory).protPte)) ∧
    ∀ p, physOffset ≤ p → p < 2 ^ 32 → ¬(p ∈ bytes t ∧ p < limit) → translation st' (physToVirt p) = none

/-- No region is mapped at first. -/
theorem EmptyAbove.built (he : EmptyAbove pages st) : Built pages types t limit st 0 := by
  have hpo : pageOffset = 0xC0000000 := rfl
  have hlasts := he.lasts
  refine ⟨fun k hk => absurd hk (Nat.not_lt_zero k), ?_, ?_, ?_, he.fresh, ?_, he.bug⟩
  · intro v hv _
    by_cases hlarge : 2 ^ 32 ≤ v
    · unfold translation
      rw [if_pos hlarge]
    · exact translation_empty (he.empty _ (by omega) (by rw [hpo] at hv ⊢; omega))
  · intro j hj hle
    rw [top] at hle
    exact he.empty j hj (by rw [hpo] at hle ⊢; omega)
  · intro hmod
    have hzero : top t limit 0 % 2 ^ 21 = 0 := by
      rw [top]
      decide
    exact absurd hzero hmod
  · rw [top, hpo]
    omega

/-- The loop over the regions, when none is blocked. -/
theorem lowmemLoop_built (ht : LowmemTable t limit) (hm : MemoryFlags types) {n fuel : ℕ}
    (hfuel : 4096 ≤ fuel) (hi : i + n = t.cnt) (hb : Built pages types t limit st i)
    (hbefore : ∀ k < i, Reached t limit k)
    (hfree : ∀ k < t.cnt, Reached t limit k → cutEnd t limit k ≤ 0x90000000 ∧ ¬Blocked t limit k) :
    ∃ st' j, lowmemLoop pages types t limit fuel st i n = some st' ∧ Built pages types t limit st' j ∧
      (∀ k < j, k < t.cnt ∧ Reached t limit k) ∧ ∀ k < t.cnt, j ≤ k → ¬Reached t limit k := by
  induction n generalizing st i with
  | zero => exact ⟨st, i, rfl, hb, fun k hk => ⟨by omega, hbefore k hk⟩, fun k hk hle => by omega⟩
  | succ n ih =>
    by_cases hr : Reached t limit i
    · have hf := regionFacts ht (by omega) hr
      obtain ⟨hbelow, hnb⟩ := hfree i (by omega) hr
      obtain ⟨st1, hrun, hmd, hgl⟩ := pgdsLoop_region hb hf hr hm hbelow hnb hfuel
      have hb1 := hb.succ hf hr hm hbelow hmd hgl fun k hk => cutEnd_le_top ht (by omega) hk
      have hbefore' : ∀ k < i + 1, Reached t limit k := by
        intro k hk
        rcases Nat.lt_succ_iff_lt_or_eq.mp hk with hki | rfl
        · exact hbefore k hki
        · exact hr
      obtain ⟨st', j, hrest, hfinal⟩ := ih (by omega) hb1 hbefore'
      refine ⟨st', j, ?_, hfinal⟩
      rw [lowmemLoop_reached ht (by omega) hr, createMapping_region hf hm hbelow, hrun, Option.bind_some,
        hrest]
    · refine ⟨st, i, lowmemLoop_stop ht (by omega) hr _ _, hb, fun k hk => ⟨by omega, hbefore k hk⟩, ?_⟩
      intro k hk hle hrk
      rcases Nat.lt_or_eq_of_le hle with hlt | rfl
      · exact hr (reached_before ht hk hrk hlt)
      · exact hr hrk

/-- The loop over the regions, when one is blocked. -/
theorem lowmemLoop_blocked (ht : LowmemTable t limit) (hm : MemoryFlags types) {n fuel : ℕ}
    (hfuel : 4096 ≤ fuel) (hi : i + n = t.cnt) (hb : Built pages types t limit st i)
    (hbelow : ∀ k < t.cnt, Reached t limit k → cutEnd t limit k ≤ 0x90000000)
    (hblocked : ∃ k < t.cnt, i ≤ k ∧ Reached t limit k ∧ Blocked t limit k)
    (h : lowmemLoop pages types t limit fuel st i n = some st') : st'.bug = true := by
  induction n generalizing st i with
  | zero =>
    obtain ⟨k, hk, hle, -, -⟩ := hblocked
    omega
  | succ n ih =>
    obtain ⟨k, hk, hle, hrk, hbk⟩ := hblocked
    have hr : Reached t limit i := by
      rcases Nat.lt_or_eq_of_le hle with hlt | rfl
      · exact reached_before ht hk hrk hlt
      · exact hrk
    have hf := regionFacts ht (by omega) hr
    rw [lowmemLoop_reached ht (by omega) hr, Option.bind_eq_some_iff] at h
    obtain ⟨st1, hst1, h⟩ := h
    by_cases hbi : Blocked t limit i
    · exact lowmemLoop_bug (createMapping_blocked hb hf hr hm (hbelow i (by omega) hr) hbi hst1) h
    · obtain ⟨st2, hrun, hmd, hgl⟩ := pgdsLoop_region hb hf hr hm (hbelow i (by omega) hr) hbi hfuel
      rw [createMapping_region hf hm (hbelow i (by omega) hr), hrun, Option.some_inj] at hst1
      subst hst1
      have hb1 := hb.succ hf hr hm (hbelow i (by omega) hr) hmd hgl
        fun k hk => cutEnd_le_top ht (by omega) hk
      have hne : k ≠ i := by
        rintro rfl
        exact hbi hbk
      exact ih (by omega) hb1 ⟨k, hk, by omega, hrk, hbk⟩ h

/-- A region that is blocked is reached. -/
theorem HalfThenPages.reached (ht : LowmemTable t limit) (hi : i + 1 < t.cnt)
    (h : HalfThenPages t limit i) : Reached t limit (i + 1) := by
  obtain ⟨g, -, -, -, -, -, hlt, -⟩ := h
  have hfilled := ht.spaced.filled (i + 1) hi (by omega)
  exact ⟨by omega, hlt⟩

/-- A linear map that covers memory is mappable. -/
theorem Covers.mappable (ht : LowmemTable t limit) (he : EmptyAbove pages st) (hm : MemoryFlags types)
    (h : Covers pages types t limit st) : Mappable t limit := by
  obtain ⟨n, h⟩ := h
  obtain ⟨st', hrun, hbug, hin, -⟩ := h (max n 4096) (le_max_left ..)
  have hbelow : ∀ i < t.cnt, Reached t limit i → cutEnd t limit i ≤ 0x90000000 := by
    intro i hi hr
    have hf := regionFacts ht hi hr
    have hlt := hf.lt
    have hphys := hf.phys
    have hfit := ht.spaced.fits i hi
    have hcut : cutEnd t limit i ≤ Region.last (t.regions i) ∧ cutEnd t limit i ≤ limit := by
      rw [cutEnd]
      omega
    have hv := hin (cutEnd t limit i - 1) ⟨i, hi, by omega, by omega⟩ (by omega)
    rw [physToVirt_eq (by omega) (by omega)] at hv
    by_contra hlarge
    have hoff : linearOffset = 0x70000000 := rfl
    have hnone : translation st' (cutEnd t limit i - 1 + linearOffset) = none := by
      unfold translation
      rw [if_pos (by omega)]
    rw [hnone] at hv
    rcases hv with hv | hv
    · cases hv
    · cases hv
  refine ⟨hbelow, fun i hi hhalf => ?_⟩
  have hreported := lowmemLoop_blocked ht hm (le_max_right n 4096) (Nat.zero_add _) he.built hbelow
    ⟨i + 1, hi, Nat.zero_le _, hhalf.reached ht hi, hhalf⟩ hrun
  rw [hbug] at hreported
  cases hreported

/-- A mappable linear map covers memory. -/
theorem Mappable.covers (ht : LowmemTable t limit) (he : EmptyAbove pages st) (hm : MemoryFlags types)
    (h : Mappable t limit) : Covers pages types t limit st := by
  refine ⟨4096, fun fuel hfuel => ?_⟩
  have hfree : ∀ k < t.cnt, Reached t limit k → cutEnd t limit k ≤ 0x90000000 ∧ ¬Blocked t limit k := by
    intro k hk hr
    refine ⟨h.below k hk hr, ?_⟩
    cases k with
    | zero => exact id
    | succ k => exact h.apart k hk
  obtain ⟨st', j, hrun, hb, hreached, hstop⟩ := lowmemLoop_built ht hm hfuel (Nat.zero_add _) he.built
    (fun k hk => absurd hk (Nat.not_lt_zero k)) hfree
  refine ⟨st', hrun, hb.bug, ?_, ?_⟩
  · rintro p ⟨k, hk, hlo, hhi⟩ hlt
    have hr : Reached t limit k := by
      rw [Region.last] at hhi
      exact ⟨by omega, by omega⟩
    have hphys := (regionFacts ht hk hr).phys
    have hfit := ht.spaced.fits k hk
    have hkj : k < j := by
      by_contra hge
      exact hstop k hk (by omega) hr
    have hcut : p < cutEnd t limit k := by
      rw [cutEnd]
      omega
    rw [physToVirt_eq (by omega) (by omega)]
    exact hb.mapped k hkj p hlo hcut
  · intro p hp hlt hout
    rw [physToVirt_eq hp hlt]
    have hpo : pageOffset = physOffset + linearOffset := rfl
    refine hb.unmapped _ (by omega) fun k hk hin => hout ⟨⟨k, (hreached k hk).1, by omega, ?_⟩, ?_⟩
    · have hcut : cutEnd t limit k ≤ Region.last (t.regions k) := Nat.min_le_left _ _
      omega
    · have hcut : cutEnd t limit k ≤ limit := Nat.min_le_right _ _
      omega

/-- `map_lowmem` builds the linear map just if memory below the limit ends below the end of the address
space, and no region ends with the first half of a group, as a section, while the next one needs pages in
the second half. -/
theorem mapLowmem_covers_iff (ht : LowmemTable t limit) (he : EmptyAbove pages st)
    (hm : MemoryFlags types) : Covers pages types t limit st ↔ Mappable t limit :=
  ⟨Covers.mappable ht he hm, Mappable.covers ht he hm⟩

/-- Two regions of memory. -/
def twoRegions (a b : Region) : MemblockType :=
  ⟨2, 128, fun i => if i = 0 then a else b, 128, none⟩

/-- Two regions of memory on pages, one behind the other. -/
theorem twoRegions_lowmem {a b : Region} (ha : 0 < a.size) (hb : 0 < b.size) (hap : physOffset ≤ a.base)
    (hapart : a.base + a.size ≤ b.base) (hfit : b.base + b.size < 2 ^ 32)
    (hda : 4096 ∣ a.base ∧ 4096 ∣ a.size) (hdb : 4096 ∣ b.base ∧ 4096 ∣ b.size) {limit : ℕ}
    (hlimit : limit < 2 ^ 32) (hpage : 4096 ∣ limit) : LowmemTable (twoRegions a b) limit := by
  have hcases : ∀ i < 2, i = 0 ∨ i = 1 := fun i hi => by omega
  have hcnt : 2 ≤ 128 := by decide
  have hroom : 128 < 2 ^ 32 := by decide
  refine ⟨⟨hcnt, le_rfl, hroom, ?_, ?_, ?_⟩, hlimit, hpage, ?_⟩
  · intro i hi
    rcases hcases i hi with rfl | rfl
    · show a.base + a.size < 2 ^ 32
      omega
    · exact hfit
  · intro i hi _
    rcases hcases i hi with rfl | rfl
    · exact ha
    · exact hb
  · intro i hi
    have hi2 : i + 1 < 2 := hi
    obtain rfl : i = 0 := by omega
    exact hapart
  · intro i hi _
    rcases hcases i hi with rfl | rfl
    · exact ⟨hap, hda⟩
    · exact ⟨(hap.trans (Nat.le_add_right _ _)).trans hapart, hdb⟩

/-- Empty tables have no entry above. -/
theorem noTables_emptyAbove (pages : EarlyPages) : EmptyAbove pages noTables := by
  refine ⟨fun _ _ _ => rfl, fun i _ h => ?_, by decide, rfl⟩
  have h0 : (0 : ℕ) % 4 = 1 := h
  omega

/-- Three megabytes, and a page in the next group: the half group keeps its section. -/
theorem mapLowmem_covers_iff_twoRegions :
    Covers pagesInOrder memTypes (twoRegions ⟨0x50000000, 0x300000⟩ ⟨0x50400000, 0x1000⟩) 0x60000000
      noTables := by
  refine (mapLowmem_covers_iff
    (twoRegions_lowmem (by decide) (by decide) (by decide) (by decide) (by decide) (by decide) (by decide)
      (by decide) (by decide)) (noTables_emptyAbove _) ⟨by decide, by decide⟩).mpr ⟨?_, ?_⟩
  · intro i _ _
    have hle : cutEnd (twoRegions ⟨0x50000000, 0x300000⟩ ⟨0x50400000, 0x1000⟩) 0x60000000 i ≤ 0x60000000 :=
      Nat.min_le_right _ _
    omega
  · intro i hi
    have hi2 : i + 1 < 2 := hi
    obtain rfl : i = 0 := by omega
    rintro ⟨g, -, -, hend, -, hlt, -⟩
    have hcut : cutEnd (twoRegions ⟨0x50000000, 0x300000⟩ ⟨0x50400000, 0x1000⟩) 0x60000000 0 = 0x50300000 := by
      decide
    have hbase : ((twoRegions ⟨0x50000000, 0x300000⟩ ⟨0x50400000, 0x1000⟩).regions 1).base = 0x50400000 := rfl
    rw [hcut] at hend
    rw [hbase] at hlt
    omega

/-- One megabyte, and a page in the second half of its group: `BUG_ON` reports the section. -/
theorem halfGroup_counterexample :
    LowmemTable (twoRegions ⟨0x50000000, 0x100000⟩ ⟨0x50180000, 0x1000⟩) 0x60000000 ∧
      EmptyAbove pagesInOrder noTables ∧
      ¬Covers pagesInOrder memTypes (twoRegions ⟨0x50000000, 0x100000⟩ ⟨0x50180000, 0x1000⟩) 0x60000000
        noTables := by
  have ht : LowmemTable (twoRegions ⟨0x50000000, 0x100000⟩ ⟨0x50180000, 0x1000⟩) 0x60000000 :=
    twoRegions_lowmem (by decide) (by decide) (by decide) (by decide) (by decide) (by decide) (by decide)
      (by decide) (by decide)
  refine ⟨ht, noTables_emptyAbove _, fun h => ?_⟩
  have hmap := Covers.mappable ht (noTables_emptyAbove _) ⟨by decide, by decide⟩ h
  refine hmap.apart 0 (by decide) ⟨0x50000000, by decide, le_rfl, by decide, by decide, by decide, by decide,
    by decide⟩

end BiscuitOS.MmuLowmem
