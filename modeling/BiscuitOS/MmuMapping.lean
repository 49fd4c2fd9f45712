import BiscuitOS.MmuTranslation

/-!
# One mapping

`create_mapping` cuts its range at the directory groups. In groups that are
empty before, every piece is mapped by sections or by pages of a new table, so
that the whole rounded range is translated and nothing else changes. The
rounding drops a page that is only partly asked for, and a range that rounds
to nothing is walked without an end.
-/

namespace BiscuitOS.MmuMapping

open MachineWord MemblockModel MmuModel MmuStores MmuTranslation

/-- Where the piece of an address starts. -/
def pieceStart (addr v : ℕ) : ℕ := max addr (v / 2 ^ 21 * 2 ^ 21)

/-- Where the piece of an address ends. -/
def pieceEnd (fin v : ℕ) : ℕ := min fin ((v / 2 ^ 21 + 1) * 2 ^ 21)

/-- The piece of an address is mapped by sections. -/
def BySections (addr fin phys v : ℕ) : Prop :=
  Sections (pieceStart addr v) (pieceEnd fin v) (phys + (pieceStart addr v - addr))

instance (addr fin phys v : ℕ) : Decidable (BySections addr fin phys v) :=
  inferInstanceAs (Decidable (Sections _ _ _))

variable (pages : EarlyPages) {st st' : Mmu} {type : MemType}

/-- The state of the last group of a mapping that ends inside it. -/
def LastGroup (st : Mmu) (type : MemType) (half : Prop) (fin : ℕ) : Prop :=
  (half → st.pmd (2 * (fin / 2 ^ 21)) % 4 = type.protSect % 4 ∧ st.pmd (2 * (fin / 2 ^ 21) + 1) = 0) ∧
    (¬half → TableGroup st (fin / 2 ^ 21) fin)

/-- A range is mapped. -/
structure MappingDone (st st' : Mmu) (type : MemType) (addr fin phys : ℕ) : Prop where
  /-- The addresses of the range. -/
  inside : ∀ v, addr ≤ v → v < fin →
    translation st' v =
      target type (pieceStart addr v) (pieceEnd fin v) (phys + (pieceStart addr v - addr))
        ((phys + (v - addr)) % 2 ^ 32)
  /-- The other addresses. -/
  outside : ∀ v, ¬(addr ≤ v ∧ v < fin) → translation st' v = translation st v
  /-- The other groups. -/
  pmd_other : ∀ i, i / 2 < addr / 2 ^ 21 ∨ (fin - 1) / 2 ^ 21 < i / 2 → st'.pmd i = st.pmd i
  /-- The pages still to be given. -/
  fresh : Fresh pages st'
  /-- At most one page is taken for each group. -/
  given_le : st'.given + addr / 2 ^ 21 ≤ st.given + ((fin - 1) / 2 ^ 21 + 1)
  /-- Nothing is reported. -/
  bug : st'.bug = st.bug
  /-- The last group, if the range ends inside it. -/
  last : fin % 2 ^ 21 ≠ 0 → LastGroup st' type (BySections addr fin phys (fin - 1)) fin

/-- Alignment does not depend on the words' size. -/
theorem sections_wrap {a n phys : ℕ} : Sections a n (wrap 32 phys) ↔ Sections a n phys := by
  have h : 2 ^ 20 ∣ wrap 32 phys ↔ 2 ^ 20 ∣ phys := by
    rw [wrap]
    omega
  rw [Sections, Sections, h]

/-- A truncated physical address leads to the same target. -/
theorem target_wrap {a n phys p : ℕ} : target type a n (wrap 32 phys) p = target type a n phys p := by
  unfold target
  by_cases h : Sections a n phys
  · rw [if_pos h, if_pos (sections_wrap.mpr h)]
  · rw [if_neg h, if_neg fun hs => h (sections_wrap.mp hs)]

/-- `alloc_init_section` by sections. -/
theorem allocInitSection_sections {g a n phys fuel : ℕ} (hg : g < 2048) (hs : Sections a n phys)
    (ha : g * 2 ^ 21 ≤ a) (han : a < n) (hn : n ≤ (g + 1) * 2 ^ 21) (hphys : phys < 2 ^ 32) (hf : 512 ≤ fuel) :
    ∃ st' m, allocInitSection pages st g a n phys type fuel = some st' ∧
      SectionsDone st st' (a / 2 ^ 20) m phys type.protSect ∧ n = a + m * 2 ^ 20 := by
  obtain ⟨hda, hdn, hdp⟩ := hs
  obtain ⟨m, hm⟩ : ∃ m, n = a + m * 2 ^ 20 := ⟨(n - a) / 2 ^ 20, by omega⟩
  have hindex : (if a &&& sectionSize ≠ 0 then 2 * g + 1 else 2 * g) = a / 2 ^ 20 := by
    by_cases hb : a / 2 ^ 20 % 2 = 1
    · rw [if_pos ((and_sectionSize_eq a).mpr hb)]
      omega
    · rw [if_neg fun h => hb ((and_sectionSize_eq a).mp h)]
      omega
  obtain ⟨st', hrun, hd⟩ := @sectionsLoop_done _ st (a / 2 ^ 20) a _ _ fuel (show 0 < m by omega)
    (by omega) hdp hphys type.protSect_lt.1 (by omega)
  refine ⟨st', m, ?_, hd, hm⟩
  rw [allocInitSection, if_pos (sectionMask_eq_zero.mpr ⟨hda, hdn, hdp⟩), hindex, hm]
  exact hrun

/-- `alloc_init_section` in an empty group. -/
theorem allocInitSection_empty {g a n phys fuel : ℕ} (hg : g < 2048)
    (hempty : st.pmd (2 * g) = 0 ∧ st.pmd (2 * g + 1) = 0) (hfresh : Fresh pages st)
    (hgiven : st.given < 2 ^ 20) (ha : g * 2 ^ 21 ≤ a) (han : a < n) (hn : n ≤ (g + 1) * 2 ^ 21)
    (hda : 4096 ∣ a) (hdn : 4096 ∣ n) (hdp : 4096 ∣ phys) (hphys : phys < 2 ^ 32)
    (hl1 : type.protL1 = 0 → Sections a n phys) (hf : 512 ≤ fuel) :
    ∃ st', allocInitSection pages st g a n phys type fuel = some st' ∧
      PieceDone pages st st' type g a n phys ∧
      (n % 2 ^ 21 ≠ 0 → LastGroup st' type (Sections a n phys) n) := by
  by_cases hs : Sections a n phys
  · obtain ⟨st', m, hrun, hd, hm⟩ :=
      @allocInitSection_sections pages st type _ _ _ _ _ hg hs ha han hn hphys hf
    refine ⟨st', hrun, sectionsPiece_any pages hd hs hm ha hn hg hfresh, fun hmod => ⟨fun _ => ?_,
      fun h => absurd hs h⟩⟩
    obtain ⟨hda', hdn', hdp'⟩ := hs
    have hgn : n / 2 ^ 21 = g := by omega
    have hone : m = 1 ∧ a / 2 ^ 20 = 2 * g := by omega
    have hword := hd.stored 0 (by omega)
    have hother := hd.pmd_other (2 * g + 1) (by omega)
    rw [hone.2, Nat.add_zero] at hword
    rw [hgn, hword, hother, hempty.2]
    exact ⟨by omega, rfl⟩
  · have hl1' : type.protL1 ≠ 0 := fun h => hs (hl1 h)
    obtain ⟨st', hrun, hd, htable⟩ :=
      pagesPiece_empty pages hg hempty hfresh hgiven ha han hn hda hdn hdp hs hl1' hf
    refine ⟨st', ?_, hd, fun hmod => ⟨fun h => absurd h hs, fun _ => ?_⟩⟩
    · rw [allocInitSection, if_neg fun h => hs (sectionMask_eq_zero.mp h)]
      exact hrun
    · rw [show n / 2 ^ 21 = g by omega]
      exact htable

/-- The end of the piece that starts a range. -/
structure NextEnd (addr fin next : ℕ) : Prop where
  /-- The piece is not empty, and in the range. -/
  range : addr < next ∧ next ≤ fin
  /-- It lies in the group. -/
  group : next ≤ (addr / 2 ^ 21 + 1) * 2 ^ 21
  /-- It ends with the range or the group. -/
  ends : next = fin ∨ next = (addr / 2 ^ 21 + 1) * 2 ^ 21
  /-- It is aligned as the end of the range. -/
  aligned : ∀ k ≤ 21, 2 ^ k ∣ fin → 2 ^ k ∣ next

/-- `pgd_addr_end` gives the end of the first piece. -/
theorem nextEnd_pgdAddrEnd {addr fin : ℕ} (hlt : addr < fin) (hfin : fin < 2 ^ 63) :
    NextEnd addr fin (pgdAddrEnd addr fin) := by
  rw [pgdAddrEnd_eq (Nat.zero_lt_of_lt hlt) hfin hlt.le]
  refine ⟨by omega, by omega, by omega, fun k hk hd => ?_⟩
  rcases Nat.le_total ((addr / 2 ^ 21 + 1) * 2 ^ 21) fin with h | h
  · rw [Nat.min_eq_left h]
    exact Dvd.dvd.mul_left (Nat.pow_dvd_pow 2 hk) _
  · rw [Nat.min_eq_right h]
    exact hd

/-- In the first group a piece starts with the range. -/
theorem pieceStart_first {addr v : ℕ} (h : v / 2 ^ 21 ≤ addr / 2 ^ 21) : pieceStart addr v = addr := by
  rw [pieceStart]
  omega

/-- Behind the first group a piece starts with its group. -/
theorem pieceStart_group {addr v : ℕ} (h : addr ≤ v / 2 ^ 21 * 2 ^ 21) :
    pieceStart addr v = v / 2 ^ 21 * 2 ^ 21 := Nat.max_eq_right h

/-- In the last group a piece ends with the range. -/
theorem pieceEnd_last {fin v : ℕ} (h : (fin - 1) / 2 ^ 21 ≤ v / 2 ^ 21) :
    pieceEnd fin v = fin := by
  rw [pieceEnd]
  omega

/-- Before the last group a piece ends with its group. -/
theorem pieceEnd_before {fin v : ℕ} (h : v / 2 ^ 21 < (fin - 1) / 2 ^ 21) :
    pieceEnd fin v = (v / 2 ^ 21 + 1) * 2 ^ 21 := by
  rw [pieceEnd]
  omega

/-- The piece of a group, as part of a range. -/
theorem PieceDone.inside_range {addr fin next phys : ℕ}
    (hd : PieceDone pages st st' type (addr / 2 ^ 21) addr next (wrap 32 phys)) {v : ℕ} (hv : addr ≤ v)
    (hlt : v < next) (hgroup : next ≤ (addr / 2 ^ 21 + 1) * 2 ^ 21) (hend : pieceEnd fin v = next) :
    translation st' v =
      target type (pieceStart addr v) (pieceEnd fin v) (phys + (pieceStart addr v - addr))
        ((phys + (v - addr)) % 2 ^ 32) := by
  have hmod : (wrap 32 phys + (v - addr)) % 2 ^ 32 = (phys + (v - addr)) % 2 ^ 32 := Nat.mod_add_mod _ _ _
  rw [hd.inside v hv hlt, target_wrap, pieceStart_first (by omega), hend, hmod, Nat.sub_self, Nat.add_zero]

/-- A range in one group is its piece. -/
theorem PieceDone.single {addr fin phys : ℕ}
    (hd : PieceDone pages st st' type (addr / 2 ^ 21) addr fin (wrap 32 phys)) (hlt : addr < fin)
    (hgroup : fin ≤ (addr / 2 ^ 21 + 1) * 2 ^ 21)
    (hlast : fin % 2 ^ 21 ≠ 0 → LastGroup st' type (Sections addr fin (wrap 32 phys)) fin) :
    MappingDone pages st st' type addr fin phys := by
  have hsame : (fin - 1) / 2 ^ 21 = addr / 2 ^ 21 := by omega
  have hgl := hd.given_le
  refine ⟨?_, hd.outside, ?_, hd.fresh, by omega, hd.bug, ?_⟩
  · intro v hv hvlt
    exact PieceDone.inside_range pages hd hv hvlt hgroup (pieceEnd_last (by omega))
  · intro i hi
    exact hd.pmd_other i (by omega)
  · intro hmod
    have hiff : Sections addr fin (wrap 32 phys) ↔ BySections addr fin phys (fin - 1) := by
      rw [sections_wrap, BySections, pieceStart_first hsame.le, pieceEnd_last le_rfl,
        Nat.sub_self, Nat.add_zero]
    obtain ⟨hhalf, htable⟩ := hlast hmod
    exact ⟨fun h => hhalf (hiff.mpr h), fun h => htable fun hs => h (hiff.mp hs)⟩

/-- A range is its first piece and the range behind it. -/
theorem MappingDone.cons {st1 : Mmu} {g addr fin phys : ℕ} (hg : addr / 2 ^ 21 = g)
    (hd : PieceDone pages st st1 type (addr / 2 ^ 21) addr ((g + 1) * 2 ^ 21) (wrap 32 phys))
    (hm : MappingDone pages st1 st' type ((g + 1) * 2 ^ 21) fin (phys + ((g + 1) * 2 ^ 21 - addr)))
    (hlt : (g + 1) * 2 ^ 21 < fin) : MappingDone pages st st' type addr fin phys := by
  have hgroup : (g + 1) * 2 ^ 21 / 2 ^ 21 = g + 1 := Nat.mul_div_cancel _ (by decide)
  have haddr : addr < (g + 1) * 2 ^ 21 := by omega
  have hlastg : g < (fin - 1) / 2 ^ 21 := by omega
  have hlater : ∀ v, (g + 1) * 2 ^ 21 ≤ v →
      pieceStart ((g + 1) * 2 ^ 21) v = pieceStart addr v ∧ (g + 1) * 2 ^ 21 ≤ pieceStart addr v := by
    intro v hv
    have hvg : (g + 1) * 2 ^ 21 ≤ v / 2 ^ 21 * 2 ^ 21 := by omega
    rw [pieceStart_group hvg, pieceStart_group (haddr.le.trans hvg)]
    exact ⟨rfl, hvg⟩
  refine ⟨?_, ?_, ?_, hm.fresh, ?_, hm.bug.trans hd.bug, ?_⟩
  · intro v hv hvlt
    by_cases hpiece : v < (g + 1) * 2 ^ 21
    · have hvg : v / 2 ^ 21 = g := by omega
      have hend : pieceEnd fin v = (g + 1) * 2 ^ 21 := by
        rw [pieceEnd_before (by omega), hvg]
      rw [hm.outside v (by omega)]
      exact PieceDone.inside_range pages hd hv hpiece (by rw [hg]) hend
    · obtain ⟨hstart, hge⟩ := hlater v (by omega)
      have hphys : phys + ((g + 1) * 2 ^ 21 - addr) + (pieceStart addr v - (g + 1) * 2 ^ 21) =
          phys + (pieceStart addr v - addr) := by
        omega
      have hv' : phys + ((g + 1) * 2 ^ 21 - addr) + (v - (g + 1) * 2 ^ 21) = phys + (v - addr) := by
        omega
      rw [hm.inside v (by omega) hvlt, hstart, hphys, hv']
  · intro v hv
    rw [hm.outside v (by omega), hd.outside v (by omega)]
  · intro i hi
    rw [hm.pmd_other i (by omega), hd.pmd_other i (by omega)]
  · have h1 := hm.given_le
    have h2 := hd.given_le
    omega
  · intro hmod
    have hhalf : BySections ((g + 1) * 2 ^ 21) fin (phys + ((g + 1) * 2 ^ 21 - addr)) (fin - 1) ↔
        BySections addr fin phys (fin - 1) := by
      obtain ⟨hstart, hge⟩ := hlater (fin - 1) (by omega)
      have hphys : phys + ((g + 1) * 2 ^ 21 - addr) + (pieceStart addr (fin - 1) - (g + 1) * 2 ^ 21) =
          phys + (pieceStart addr (fin - 1) - addr) := by
        omega
      rw [BySections, BySections, hstart, hphys]
    obtain ⟨h1, h2⟩ := hm.last hmod
    exact ⟨fun h => h1 (hhalf.mpr h), fun h => h2 fun hs => h (hhalf.mp hs)⟩

/-- The loop of `create_mapping`, by its first piece and the loop over the later groups. -/
theorem pgdsLoop_piece {st1 : Mmu} {g fin inner fuel addr phys next : ℕ} (hg : addr / 2 ^ 21 = g)
    (hlt : addr < fin) (hnext : pgdAddrEnd addr fin = next) (hn : NextEnd addr fin next)
    (hrun : allocInitSection pages st g addr next (wrap 32 phys) type inner = some st1)
    (hd : PieceDone pages st st1 type g addr next (wrap 32 phys))
    (hlast : next % 2 ^ 21 ≠ 0 → LastGroup st1 type (Sections addr next (wrap 32 phys)) next)
    (hrest : (g + 1) * 2 ^ 21 < fin →
      ∃ st', pgdsLoop pages st1 (g + 1) ((g + 1) * 2 ^ 21) fin (phys + ((g + 1) * 2 ^ 21 - addr)) type
          inner fuel = some st' ∧
        MappingDone pages st1 st' type ((g + 1) * 2 ^ 21) fin (phys + ((g + 1) * 2 ^ 21 - addr))) :
    ∃ st', pgdsLoop pages st g addr fin phys type inner (fuel + 1) = some st' ∧
      MappingDone pages st st' type addr fin phys ∧
      st'.given + (g + 1) ≤ st1.given + ((fin - 1) / 2 ^ 21 + 1) := by
  obtain ⟨⟨hlo, hhi⟩, hgroup, hends, -⟩ := hn
  subst hg
  rw [pgdsLoop, hnext, hrun, Option.bind_some]
  by_cases hdone : next = fin
  · subst hdone
    rw [if_pos rfl]
    exact ⟨st1, rfl, PieceDone.single pages hd hlt hgroup hlast, by omega⟩
  · have hb := hends.resolve_left hdone
    subst hb
    have hltfin : (addr / 2 ^ 21 + 1) * 2 ^ 21 < fin := lt_of_le_of_ne hhi hdone
    obtain ⟨st', hrun', hm⟩ := hrest hltfin
    have hgl := hm.given_le
    rw [Nat.mul_div_cancel _ (by decide)] at hgl
    rw [if_neg hdone]
    exact ⟨st', hrun', MappingDone.cons pages rfl hd hm hltfin, hgl⟩

/-- The loop of `create_mapping` over empty groups. -/
theorem pgdsLoop_empty {fin inner fuel addr phys : ℕ} (hinner : 512 ≤ inner) (hfin : fin ≤ 2 ^ 32)
    (hdfin : 4096 ∣ fin) (hlt : addr < fin) (hda : 4096 ∣ addr) (hdp : 4096 ∣ phys)
    (hempty : ∀ i, addr / 2 ^ 21 ≤ i / 2 → i / 2 ≤ (fin - 1) / 2 ^ 21 → st.pmd i = 0)
    (hfresh : Fresh pages st) (hgiven : st.given + (2048 - addr / 2 ^ 21) ≤ 2 ^ 20)
    (hl1 : type.protL1 = 0 → Sections addr fin phys) (hf : (fin - 1) / 2 ^ 21 - addr / 2 ^ 21 < fuel) :
    ∃ st', pgdsLoop pages st (addr / 2 ^ 21) addr fin phys type inner fuel = some st' ∧
      MappingDone pages st st' type addr fin phys := by
  induction fuel generalizing st addr phys with
  | zero => omega
  | succ fuel ih =>
    have hsmall : fin < 2 ^ 63 := lt_of_le_of_lt hfin (by decide)
    have hnext := nextEnd_pgdAddrEnd hlt hsmall
    generalize hn : pgdAddrEnd addr fin = next at hnext
    have haligned := hnext.aligned
    have hsub : type.protL1 = 0 → Sections addr next (wrap 32 phys) := by
      intro h
      obtain ⟨h1, h2, h3⟩ := hl1 h
      exact sections_wrap.mpr ⟨h1, haligned 20 (by decide) h2, h3⟩
    have hdn : 4096 ∣ next := haligned 12 (by decide) hdfin
    have hdw : 4096 ∣ wrap 32 phys := by
      rw [wrap]
      omega
    obtain ⟨g, hg⟩ : ∃ g, addr / 2 ^ 21 = g := ⟨_, rfl⟩
    have hgroup := hnext.group
    rw [hg] at hempty hgiven hf hgroup ⊢
    have hfirst : st.pmd (2 * g) = 0 ∧ st.pmd (2 * g + 1) = 0 :=
      ⟨hempty _ (by omega) (by omega), hempty _ (by omega) (by omega)⟩
    obtain ⟨st1, hrun, hd, hlast⟩ := @allocInitSection_empty pages st type g addr next
      (wrap 32 phys) inner (by omega) hfirst hfresh (by omega) (by omega) hnext.range.1 hgroup hda
      hdn hdw (wrap_lt 32 _) hsub hinner
    obtain ⟨st', hrun', hm, -⟩ := @pgdsLoop_piece pages _ _ _ _ _ _ fuel _ _ _ hg hlt hn hnext hrun
      hd hlast
      fun hltfin => by
        have hgl := hd.given_le
        have hgroup' : (g + 1) * 2 ^ 21 / 2 ^ 21 = g + 1 := Nat.mul_div_cancel _ (by decide)
        have hrest : ∀ i, (g + 1) * 2 ^ 21 / 2 ^ 21 ≤ i / 2 → i / 2 ≤ (fin - 1) / 2 ^ 21 →
            st1.pmd i = 0 := by
          intro i h1 h2
          rw [hgroup'] at h1
          rw [hd.pmd_other i (by omega)]
          exact hempty i (by omega) h2
        have hdg : 4096 ∣ (g + 1) * 2 ^ 21 := by omega
        have hphys : 4096 ∣ phys + ((g + 1) * 2 ^ 21 - addr) := by omega
        have hl1' : type.protL1 = 0 →
            Sections ((g + 1) * 2 ^ 21) fin (phys + ((g + 1) * 2 ^ 21 - addr)) := by
          intro h
          obtain ⟨h1, h2, h3⟩ := hl1 h
          exact ⟨by omega, h2, by omega⟩
        have hgiven' : st1.given + (2048 - (g + 1) * 2 ^ 21 / 2 ^ 21) ≤ 2 ^ 20 := by
          rw [hgroup']
          omega
        have hfuel : (fin - 1) / 2 ^ 21 - (g + 1) * 2 ^ 21 / 2 ^ 21 < fuel := by
          rw [hgroup']
          omega
        have hloop := @ih st1 _ _ hltfin hdg hphys hrest hd.fresh hgiven' hl1' hfuel
        rwa [hgroup'] at hloop
    exact ⟨st', hrun', hm⟩

/-- The loop of `create_mapping` over nothing has no end. -/
theorem pgdsLoop_none {addr phys inner : ℕ} (hpos : 0 < addr) (hlt : addr < 2 ^ 63) (pgd fuel : ℕ) :
    pgdsLoop pages st pgd addr addr phys type inner fuel = none := by
  cases fuel with
  | zero => rfl
  | succ fuel =>
    have hnext : pgdAddrEnd addr addr = addr := by
      rw [pgdAddrEnd_eq hpos hlt le_rfl]
      omega
    have hpiece : allocInitSection pages st pgd addr addr (wrap 32 phys) type inner = none := by
      rw [allocInitSection]
      split
      · exact sectionsLoop_none le_rfl _
      · rw [allocInitPte]
        exact Option.bind_eq_none_iff.mpr fun r _ => ptesLoop_none le_rfl _
    rw [pgdsLoop, hnext, hpiece, Option.bind_none]

end BiscuitOS.MmuMapping
