import BiscuitOS.MmuMapping

/-!
# When a mapping is what it describes

The description passes the first checks, and the groups it touches are empty.
Then `create_mapping` builds the translation it describes just if the range
ends with a page, the physical range fits 32 bits, and a type that is mapped
by sections has their flags.
-/

namespace BiscuitOS.MmuContract

open MachineWord MemblockModel MmuModel MmuStores MmuTranslation MmuMapping

/-- A description that passes the first checks of `create_mapping`. -/
structure Accepted (types : MapType → MemType) (md : MapDesc) : Prop where
  /-- It is not empty. -/
  length_pos : 0 < md.length
  /-- It is no 36-bit address. -/
  pfn_lt : md.pfn < 0x100000
  /-- It lies in the address space. -/
  range_le : md.virt + md.length ≤ 2 ^ 32
  /-- It is not in the user region. -/
  kernel : ¬(md.virt ≠ vectorsBase ∧ md.virt < taskSize)
  /-- Its type can map it. -/
  mappable : ¬Unmappable (types md.type) (alignDown 32 md.virt pageSize) (md.pfn <<< 12)
    (pageAlign (md.length + md.virt % pageSize))

/-- Tables whose groups are empty where a range touches them. -/
structure Ready (pages : EarlyPages) (st : Mmu) (md : MapDesc) : Prop where
  /-- The groups are empty. -/
  empty : ∀ i, md.virt / 2 ^ 21 ≤ i / 2 → i / 2 ≤ (md.virt + md.length - 1) / 2 ^ 21 → st.pmd i = 0
  /-- The tables in use are not given again. -/
  fresh : Fresh pages st
  /-- There is memory for a table in every group. -/
  lasts : st.given + 2048 ≤ 2 ^ 20

/-- The first address that `create_mapping` walks. -/
def rangeStart (md : MapDesc) : ℕ := md.virt / 4096 * 4096

/-- The number of bytes that it walks. -/
def roundedLength (md : MapDesc) : ℕ := (md.length + md.virt % 4096) / 4096 * 4096

/-- The physical address of the first. -/
def physStart (md : MapDesc) : ℕ := md.pfn * 4096

/-- `create_mapping` returns, every address of the description is translated by a section or a page with
the flags of the type, and no address outside its pages changes. -/
def Builds (pages : EarlyPages) (types : MapType → MemType) (st : Mmu) (md : MapDesc) : Prop :=
  ∃ n, ∀ fuel, n ≤ fuel → ∃ st', createMapping pages types st md fuel = some st' ∧
    (∀ v, md.virt ≤ v → v < md.virt + md.length →
      translation st' v = some (.bySection (physStart md + (v - rangeStart md)) (types md.type).protSect) ∨
      translation st' v = some (.byPage (physStart md + (v - rangeStart md)) (types md.type).protPte)) ∧
    ∀ v, v < rangeStart md ∨ (md.virt + md.length + 4095) / 4096 * 4096 ≤ v →
      translation st' v = translation st v

/-- The range ends with a page, its physical addresses have 32 bits, and what sections map has the flags
of a section. -/
structure Describable (types : MapType → MemType) (md : MapDesc) : Prop where
  /-- The range ends with a page. -/
  whole : (md.virt + md.length) % 4096 = 0
  /-- The physical range. -/
  fits : md.pfn * 4096 + (md.length + md.virt % 4096) ≤ 2 ^ 32
  /-- The flags of a section. -/
  sections : (∃ v, md.virt ≤ v ∧ v < md.virt + md.length ∧
    BySections (rangeStart md) (md.virt + md.length) (physStart md) v) → (types md.type).protSect % 4 = 2

variable {pages : EarlyPages} {types : MapType → MemType} {st : Mmu} {md : MapDesc}

/-- The pages that are walked. -/
theorem range_facts (md : MapDesc) :
    4096 ∣ rangeStart md ∧ 4096 ∣ roundedLength md ∧ 4096 ∣ physStart md ∧ rangeStart md ≤ md.virt ∧
      md.virt < rangeStart md + 4096 ∧ rangeStart md + roundedLength md ≤ md.virt + md.length ∧
      md.virt + md.length < rangeStart md + roundedLength md + 4096 := by
  rw [rangeStart, roundedLength, physStart]
  omega

/-- A target, if there is one. -/
theorem target_cases {type : MemType} {a n phys p : ℕ} :
    (Sections a n phys ∧ type.protSect % 4 = 2 ∧ target type a n phys p = some (.bySection p type.protSect)) ∨
    (Sections a n phys ∧ type.protSect % 4 ≠ 2 ∧ target type a n phys p = none) ∨
    (¬Sections a n phys ∧ target type a n phys p = some (.byPage p type.protPte)) := by
  unfold target
  by_cases hs : Sections a n phys
  · by_cases hp : type.protSect % 4 = 2
    · exact Or.inl ⟨hs, hp, by rw [if_pos hs, if_pos hp]⟩
    · exact Or.inr (Or.inl ⟨hs, hp, by rw [if_pos hs, if_neg hp]⟩)
  · exact Or.inr (Or.inr ⟨hs, by rw [if_neg hs]⟩)

/-- An accepted range lies behind the user region. -/
theorem Accepted.taskSize_le (h : Accepted types md) : 0xBF000000 ≤ md.virt := by
  have ht : taskSize = 0xBF000000 := by decide
  have hv : 0xBF000000 ≤ vectorsBase := by decide
  rw [← ht] at hv ⊢
  by_contra hlt
  refine h.kernel ⟨?_, not_le.mp hlt⟩
  intro he
  exact hlt (he ▸ hv)

/-- The words that `create_mapping` computes first. -/
theorem Accepted.words (h : Accepted types md) :
    alignDown 32 md.virt pageSize = rangeStart md ∧
      pageAlign (md.length + md.virt % pageSize) = roundedLength md ∧ md.pfn <<< 12 = physStart md := by
  have hlen := h.length_pos
  have hrange := h.range_le
  have hk := h.taskSize_le
  have hoff : md.length + md.virt % pageSize < 2 ^ 32 := by
    rw [pageSize]
    omega
  have hlength : pageAlign (md.length + md.virt % pageSize) = roundedLength md := by
    rw [pageAlign, alignDown_page hoff, roundedLength, pageSize]
  have haddr : alignDown 32 md.virt pageSize = rangeStart md := by
    rw [alignDown_page (by omega), rangeStart]
  exact ⟨haddr, hlength, by rw [pfn_shiftLeft, physStart]⟩

/-- `create_mapping` behind its first checks. -/
theorem createMapping_accepted (h : Accepted types md) (fuel : ℕ) :
    createMapping pages types st md fuel =
      pgdsLoop pages st (rangeStart md / 2 ^ 21) (rangeStart md) (rangeStart md + roundedLength md)
        (physStart md) (types md.type) fuel fuel := by
  obtain ⟨haddr, hlength, hphys⟩ := h.words
  have hm := h.mappable
  rw [haddr, hlength, hphys] at hm
  rw [createMapping, if_neg h.kernel, if_neg (not_le.mpr h.pfn_lt)]
  dsimp only
  rw [haddr, hlength, hphys, if_neg hm, Nat.shiftRight_eq_div_pow]

/-- A type without tables maps ranges of sections only. -/
theorem sections_of_accepted (h : Accepted types md) (hl1 : (types md.type).protL1 = 0) :
    Sections (rangeStart md) (rangeStart md + roundedLength md) (physStart md) := by
  obtain ⟨haddr, hlength, hphys⟩ := h.words
  have hm := h.mappable
  rw [haddr, hlength, hphys, Unmappable, not_and, not_not] at hm
  obtain ⟨h1, h2, h3⟩ := sectionMask_eq_zero.mp (hm hl1)
  exact ⟨h1, (Nat.dvd_add_right h1).mpr h3, h2⟩

/-- A range of at least one page is mapped, up to its last whole page. -/
theorem createMapping_done (h : Accepted types md) (hr : Ready pages st md) (hlen : 0 < roundedLength md)
    {fuel : ℕ} (hf : 4096 ≤ fuel) :
    ∃ st', createMapping pages types st md fuel = some st' ∧
      MappingDone pages st st' (types md.type) (rangeStart md) (rangeStart md + roundedLength md)
        (physStart md) := by
  have hrange := h.range_le
  have hpos := h.length_pos
  have hlasts := hr.lasts
  have hs := sections_of_accepted h
  obtain ⟨hda, hdl, hdp, hle, hlt, hend, -⟩ := range_facts md
  rw [createMapping_accepted h]
  generalize rangeStart md = addr at *
  generalize roundedLength md = len at *
  have hgroup : md.virt / 2 ^ 21 = addr / 2 ^ 21 := by omega
  have hempty : ∀ i, addr / 2 ^ 21 ≤ i / 2 → i / 2 ≤ (addr + len - 1) / 2 ^ 21 → st.pmd i = 0 := by
    intro i h1 h2
    exact hr.empty i (by omega) (by omega)
  exact pgdsLoop_empty pages (by omega) (by omega) (by omega) (by omega) hda hdp hempty hr.fresh
    (by omega) hs (by omega)

/-- A range of less than a page is walked without an end. -/
theorem createMapping_none (h : Accepted types md) (hlen : roundedLength md = 0) (fuel : ℕ) :
    createMapping pages types st md fuel = none := by
  have hrange := h.range_le
  have hpos := h.length_pos
  have hk := h.taskSize_le
  obtain ⟨-, -, -, hle, hlt, -, -⟩ := range_facts md
  rw [createMapping_accepted h, hlen, Nat.add_zero]
  exact pgdsLoop_none pages (by omega) (by omega) _ _

/-- The target of an address that is translated as described. -/
theorem target_described {type : MemType} {a n phys p p' : ℕ}
    (h : target type a n phys p = some (.bySection p' type.protSect) ∨
      target type a n phys p = some (.byPage p' type.protPte)) :
    (Sections a n phys → type.protSect % 4 = 2) ∧ p = p' := by
  rcases @target_cases type a n phys p with
    ⟨-, hp, he⟩ | ⟨-, -, he⟩ | ⟨hs, he⟩
  · refine ⟨fun _ => hp, ?_⟩
    rw [he] at h
    rcases h with h | h
    · exact (Translation.bySection.inj (Option.some.inj h)).1
    · cases h
  · rw [he] at h
    rcases h with h | h
    · cases h
    · cases h
  · refine ⟨fun hs' => absurd hs' hs, ?_⟩
    rw [he] at h
    rcases h with h | h
    · cases h
    · exact (Translation.byPage.inj (Option.some.inj h)).1

/-- A mapping that is built is describable. -/
theorem Builds.describable (h : Accepted types md) (hr : Ready pages st md)
    (hb : Builds pages types st md) : Describable types md := by
  obtain ⟨n, hb⟩ := hb
  obtain ⟨st', hrun, hin, -⟩ := hb (max n 4096) (le_max_left ..)
  have hpos := h.length_pos
  have hrange := h.range_le
  have hlen : 0 < roundedLength md := by
    by_contra hzero
    rw [createMapping_none h (by omega)] at hrun
    cases hrun
  obtain ⟨st2, hrun', hm⟩ := createMapping_done h hr hlen (le_max_right n 4096)
  obtain rfl : st' = st2 := Option.some_inj.mp (hrun.symm.trans hrun')
  obtain ⟨hda, hdl, hdp, hle, hlt, hend, -⟩ := range_facts md
  have hlast : md.virt + md.length - 1 < rangeStart md + roundedLength md := by
    by_contra hout
    have hnone : translation st (md.virt + md.length - 1) = none :=
      translation_empty (hr.empty _ (by omega) (by omega))
    have hv := hin (md.virt + md.length - 1) (by omega) (by omega)
    rw [hm.outside _ (by omega), hnone] at hv
    rcases hv with hv | hv
    · cases hv
    · cases hv
  have hfin : rangeStart md + roundedLength md = md.virt + md.length := by omega
  rw [hfin] at hm
  have htarget : ∀ v, md.virt ≤ v → v < md.virt + md.length →
      (BySections (rangeStart md) (md.virt + md.length) (physStart md) v →
        (types md.type).protSect % 4 = 2) ∧
      (physStart md + (v - rangeStart md)) % 2 ^ 32 = physStart md + (v - rangeStart md) := by
    intro v hv hlt
    have ht := hin v hv hlt
    rw [hm.inside v (by omega) hlt] at ht
    exact target_described ht
  refine ⟨by omega, ?_, ?_⟩
  · have hp := (htarget (md.virt + md.length - 1) (by omega) (by omega)).2
    rw [physStart] at hp
    rw [rangeStart] at hp hfin
    omega
  · rintro ⟨v, hv, hlt, hs⟩
    exact (htarget v hv hlt).1 hs

/-- A describable mapping is built. -/
theorem Describable.builds (h : Accepted types md) (hr : Ready pages st md)
    (hd : Describable types md) : Builds pages types st md := by
  have hpos := h.length_pos
  have hwhole := hd.whole
  have hfits := hd.fits
  obtain ⟨hda, hdl, hdp, hle, hlt, hend, hend'⟩ := range_facts md
  have hfin : rangeStart md + roundedLength md = md.virt + md.length := by omega
  have hlen : 0 < roundedLength md := by omega
  refine ⟨4096, fun fuel hf => ?_⟩
  obtain ⟨st', hrun, hm⟩ := createMapping_done h hr hlen hf
  rw [hfin] at hm
  refine ⟨st', hrun, ?_, ?_⟩
  · intro v hv hvlt
    have hbound : physStart md + (v - rangeStart md) < 2 ^ 32 := by
      rw [physStart, rangeStart]
      omega
    have hi := hm.inside v (by omega) hvlt
    rw [Nat.mod_eq_of_lt hbound] at hi
    rcases @target_cases (types md.type) (pieceStart (rangeStart md) v)
      (pieceEnd (md.virt + md.length) v)
      (physStart md + (pieceStart (rangeStart md) v - rangeStart md))
      (physStart md + (v - rangeStart md)) with ⟨-, -, he⟩ | ⟨hs, hp, -⟩ | ⟨-, he⟩
    · exact Or.inl (hi.trans he)
    · exact absurd (hd.sections ⟨v, hv, hvlt, hs⟩) hp
    · exact Or.inr (hi.trans he)
  · intro v hv
    exact hm.outside v (by omega)

/-- On an accepted description with empty groups `create_mapping` builds the translation it describes
just if the range ends with a page, its physical addresses have 32 bits, and a type that sections map has
their flags. -/
theorem createMapping_builds_iff (h : Accepted types md) (hr : Ready pages st md) :
    Builds pages types st md ↔ Describable types md :=
  ⟨Builds.describable h hr, Describable.builds h hr⟩

/-- Pages that are given in order. -/
def pagesInOrder : EarlyPages where
  frame k := k % 2 ^ 20
  frame_lt k := Nat.mod_lt _ (by decide)
  frame_ne j k hj hk h := by rwa [Nat.mod_eq_of_lt hj, Nat.mod_eq_of_lt hk] at h

/-- Tables without an entry. -/
def noTables : Mmu := ⟨fun _ => 0, fun _ _ => 0, 0, false⟩

/-- Empty tables are ready for every mapping. -/
theorem noTables_ready (pages : EarlyPages) (md : MapDesc) : Ready pages noTables md := by
  refine ⟨fun _ _ _ => rfl, fun i _ h => ?_, by decide⟩
  have h0 : (0 : ℕ) % 4 = 1 := h
  omega

/-- Three megabytes of memory and a page, from the middle of a group on: sections and pages. -/
theorem createMapping_builds_iff_memory :
    Builds pagesInOrder memTypes noTables ⟨0xC0100000, 0x50100, 0x301000, .memory⟩ :=
  (createMapping_builds_iff
    ⟨by decide, by decide, by decide, by decide, by decide +kernel⟩
    (noTables_ready _ _)).mpr ⟨by decide, by decide, fun _ => by decide⟩

/-- Registers of less than a page are accepted, and the walk does not end. -/
theorem registers_counterexample :
    Accepted memTypes ⟨0xF8000000, 0x10000, 0x100, .device⟩ ∧
      Ready pagesInOrder noTables ⟨0xF8000000, 0x10000, 0x100, .device⟩ ∧
      ¬Builds pagesInOrder memTypes noTables ⟨0xF8000000, 0x10000, 0x100, .device⟩ := by
  have h : Accepted memTypes ⟨0xF8000000, 0x10000, 0x100, .device⟩ :=
    ⟨by decide, by decide, by decide, by decide, by decide +kernel⟩
  refine ⟨h, noTables_ready _ _, ?_⟩
  rintro ⟨n, hb⟩
  obtain ⟨st', hrun, -⟩ := hb n le_rfl
  rw [createMapping_none h (by decide)] at hrun
  cases hrun

end BiscuitOS.MmuContract
