import BiscuitOS.MmuContract

/-!
# Pieces in a group that is in use

A group that a mapping left with a table takes further pages into it, and a
section over its second half. A group whose first half is a section has no
table: pages in its second half are reported by `BUG_ON`, and the report
stays.
-/

namespace BiscuitOS.MmuPieces

open MachineWord MemblockModel MmuModel MmuStores MmuTranslation MmuMapping

variable {pages : EarlyPages} {st st' : Mmu} {type : MemType}

/-- `early_pte_alloc` in a group that is not empty. -/
theorem earlyPteAlloc_used {g addr prot : ℕ} (hg : g < 2048) (hused : st.pmd (2 * g) ≠ 0) :
    earlyPteAlloc pages st (2 * g) addr prot =
      some ({ st with bug := st.bug || pmdBad st (2 * g) }, st.pmd (2 * g) / 4096, addr / 4096 % 512) := by
  rw [earlyPteAlloc, if_pos (show 2 * g < 2 * ptrsPerPgd by rw [ptrsPerPgd]; omega), if_neg hused,
    Option.map_some, pteIndex_eq, Nat.shiftRight_eq_div_pow]

/-- A piece of pages in a group with a table that is empty from there on. -/
theorem pagesPiece_table {g a n x phys fuel : ℕ} (hg : g < 2048) (ht : TableGroup st g x)
    (hfresh : Fresh pages st) (hx : x ≤ a) (ha : g * 2 ^ 21 ≤ a) (han : a < n) (hn : n ≤ (g + 1) * 2 ^ 21)
    (hda : 4096 ∣ a) (hdn : 4096 ∣ n) (hdp : 4096 ∣ phys) (hs : ¬Sections a n phys)
    (hl1 : type.protL1 ≠ 0) (hf : 512 ≤ fuel) :
    ∃ st', allocInitPte pages st (2 * g) a n (phys >>> 12) type fuel = some st' ∧
      PieceDone pages st st' type g a n phys ∧ TableGroup st' g n ∧ st'.given = st.given := by
  obtain ⟨-, -, hpresent⟩ := type.protL1_table.resolve_left hl1
  obtain ⟨m, hm⟩ : ∃ m, n = a + m * 4096 := ⟨(n - a) / 4096, by omega⟩
  have hfirst := ht.first
  have hsecond := ht.second
  have hbad : pmdBad st (2 * g) = false := by
    rw [pmdBad_eq]
    exact decide_eq_false (by omega)
  have hpfn : phys >>> 12 * 4096 = phys := by
    rw [Nat.shiftRight_eq_div_pow]
    omega
  obtain ⟨st', hrun, hd⟩ := @ptesLoop_done m st (st.pmd (2 * g) / 4096) (a / 4096 % 512) a
    (phys >>> 12) _ fuel (by omega) (by omega) type.protPte_lt (by omega)
  have hgroup : ∀ v, v / 2 ^ 21 = g → st.pmd (v / 2 ^ 20) % 4 = 1 ∧
      st.pmd (v / 2 ^ 20) / 4096 = st.pmd (2 * g) / 4096 := by
    intro v hv
    rcases (show v / 2 ^ 20 = 2 * g ∨ v / 2 ^ 20 = 2 * g + 1 by omega) with h | h
    · rw [h]
      exact ⟨hfirst, rfl⟩
    · rw [h]
      exact hsecond
  refine ⟨st', ?_, ⟨?_, ?_, ?_, ?_, ?_, hd.bug⟩, ⟨?_, ?_, ?_, ?_⟩, hd.given⟩
  · rw [allocInitPte, earlyPteAlloc_used hg (by omega), Option.bind_some, hbad, Bool.or_false, hm]
    exact hrun
  · intro v hv hlt
    have hword := hd.stored (v / 4096 % 512 - a / 4096 % 512) (by omega)
    rw [Nat.add_mul, hpfn, show a / 4096 % 512 + (v / 4096 % 512 - a / 4096 % 512) = v / 4096 % 512 by omega]
      at hword
    have htable : st'.pmd (v / 2 ^ 20) % 4 = 1 := by
      rw [hd.pmd]
      exact (hgroup v (by omega)).1
    have hfr : st'.pmd (v / 2 ^ 20) / 4096 = st.pmd (2 * g) / 4096 := by
      rw [hd.pmd]
      exact (hgroup v (by omega)).2
    have hdiv : 4096 ∣ (phys + (v / 4096 % 512 - a / 4096 % 512) * 4096) % 2 ^ 32 := by omega
    rw [target, if_neg hs, translation_page (by omega) htable hfr hword hdiv type.protPte_lt hpresent]
    congr 2
    omega
  · intro v hv
    by_cases hlarge : 2 ^ 32 ≤ v
    · unfold translation
      rw [if_pos hlarge, if_pos hlarge]
    · refine translation_congr (by rw [hd.pmd]) fun htable => ?_
      by_cases hin : v / 2 ^ 21 = g
      · rw [(hgroup v hin).2]
        exact hd.pte_other _ (by omega)
      · rw [hd.frame_other _ (ht.own _ (by omega) (by omega) htable)]
  · intro i _
    rw [hd.pmd]
  · intro i hi htable j hj hlt
    rw [hd.pmd] at htable ⊢
    rw [hd.given] at hj
    exact hfresh i hi htable j hj hlt
  · rw [hd.given]
    omega
  · rw [hd.pmd]
    exact hfirst
  · rw [hd.pmd]
    exact hsecond
  · intro i hi hle
    rw [hd.pmd, hd.pte_other i (by omega)]
    exact ht.clear i hi (by omega)
  · rw [hd.pmd]
    exact ht.own

/-- A reported `BUG_ON` stays while sections are stored. -/
theorem sectionsLoop_bug {i addr fin phys prot fuel : ℕ} (hb : st.bug = true)
    (h : sectionsLoop st i addr fin phys prot fuel = some st') : st'.bug = true := by
  induction fuel generalizing st i addr phys with
  | zero => cases h
  | succ fuel ih =>
    rw [sectionsLoop, Option.bind_eq_some_iff] at h
    obtain ⟨st1, hset, h⟩ := h
    rw [Mmu.setPmd, Option.ite_none_right_eq_some, Option.some_inj] at hset
    have hb1 : st1.bug = true := by
      rw [← hset.2]
      exact hb
    split at h
    · rwa [← Option.some_inj.mp h]
    · exact ih hb1 h

/-- A reported `BUG_ON` stays while pages are stored. -/
theorem ptesLoop_bug {frame i addr fin pfn prot fuel : ℕ} (hb : st.bug = true)
    (h : ptesLoop st frame i addr fin pfn prot fuel = some st') : st'.bug = true := by
  induction fuel generalizing st i addr pfn with
  | zero => cases h
  | succ fuel ih =>
    rw [ptesLoop, Option.bind_eq_some_iff] at h
    obtain ⟨st1, hset, h⟩ := h
    rw [Mmu.setPte, Option.ite_none_right_eq_some, Option.some_inj] at hset
    have hb1 : st1.bug = true := by
      rw [← hset.2]
      exact hb
    split at h
    · rwa [← Option.some_inj.mp h]
    · exact ih hb1 h

/-- A reported `BUG_ON` stays while a table is looked up. -/
theorem earlyPteAlloc_bug {i addr prot : ℕ} {r : Mmu × ℕ × ℕ} (hb : st.bug = true)
    (h : earlyPteAlloc pages st i addr prot = some r) : r.1.bug = true := by
  rw [earlyPteAlloc, Option.map_eq_some_iff] at h
  obtain ⟨st1, hst1, rfl⟩ := h
  have hb1 : st1.bug = true := by
    rw [Option.ite_none_right_eq_some] at hst1
    obtain ⟨-, hst1⟩ := hst1
    split at hst1
    · simp only [pmdPopulate, Option.bind_eq_some_iff, Mmu.setPmd, Option.ite_none_right_eq_some,
        Option.some_inj] at hst1
      obtain ⟨st2, ⟨-, rfl⟩, -, rfl⟩ := hst1
      exact hb
    · rwa [← Option.some_inj.mp hst1]
  dsimp only
  rw [hb1, Bool.true_or]

/-- A reported `BUG_ON` stays in `alloc_init_section`. -/
theorem allocInitSection_bug {pgd addr fin phys fuel : ℕ} (hb : st.bug = true)
    (h : allocInitSection pages st pgd addr fin phys type fuel = some st') : st'.bug = true := by
  rw [allocInitSection] at h
  split at h
  · exact sectionsLoop_bug hb h
  · rw [allocInitPte, Option.bind_eq_some_iff] at h
    obtain ⟨r, hr, h⟩ := h
    exact ptesLoop_bug (earlyPteAlloc_bug hb hr) h

/-- A reported `BUG_ON` stays in the loop of `create_mapping`. -/
theorem pgdsLoop_bug {pgd addr fin phys inner fuel : ℕ} (hb : st.bug = true)
    (h : pgdsLoop pages st pgd addr fin phys type inner fuel = some st') : st'.bug = true := by
  induction fuel generalizing st pgd addr phys with
  | zero => cases h
  | succ fuel ih =>
    rw [pgdsLoop, Option.bind_eq_some_iff] at h
    obtain ⟨st1, hst1, h⟩ := h
    have hb1 := allocInitSection_bug hb hst1
    by_cases hdone : pgdAddrEnd addr fin = fin
    · rw [if_pos hdone, Option.some_inj] at h
      exact h ▸ hb1
    · rw [if_neg hdone] at h
      exact ih hb1 h

/-- A reported `BUG_ON` stays in `create_mapping`. -/
theorem createMapping_bug {types : MapType → MemType} {md : MapDesc} {fuel : ℕ} (hb : st.bug = true)
    (h : createMapping pages types st md fuel = some st') : st'.bug = true := by
  rw [createMapping] at h
  split at h
  · rwa [← Option.some_inj.mp h]
  · split at h
    · rwa [← Option.some_inj.mp h]
    · dsimp only at h
      split at h
      · rwa [← Option.some_inj.mp h]
      · exact pgdsLoop_bug hb h

/-- Pages in a group whose first half is a section are reported. -/
theorem allocInitSection_half {g a n phys fuel : ℕ} (hg : g < 2048) (hhalf : st.pmd (2 * g) % 4 = 2)
    (hs : ¬Sections a n phys) (h : allocInitSection pages st g a n phys type fuel = some st') :
    st'.bug = true := by
  have hbad : pmdBad st (2 * g) = true := by
    rw [pmdBad_eq]
    exact decide_eq_true (by omega)
  rw [allocInitSection, if_neg fun hz => hs (sectionMask_eq_zero.mp hz), allocInitPte,
    earlyPteAlloc_used hg (by omega), Option.bind_some, hbad, Bool.or_true] at h
  exact ptesLoop_bug rfl h

end BiscuitOS.MmuPieces
