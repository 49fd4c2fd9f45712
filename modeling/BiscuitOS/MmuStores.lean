import BiscuitOS.MmuModel

/-!
# What the mapping loops store

The loop over sections fills consecutive words of the directory, the loop over
pages consecutive words of one table. A loop whose end does not lie ahead
never meets it. The bit operations on aligned words are sums and remainders.
-/

namespace BiscuitOS.MmuStores

open MachineWord MemblockModel MmuModel

/-- Flags below an aligned address are added to it. -/
theorem or_flags {k x prot : ℕ} (hx : 2 ^ k ∣ x) (hp : prot < 2 ^ k) : x ||| prot = x + prot := by
  obtain ⟨c, rfl⟩ := hx
  exact (Nat.two_pow_add_eq_or_of_lt hp c).symm

/-- Three addresses are aligned together just if each is. -/
theorem or_and_mask_eq_zero {k a b c : ℕ} :
    (a ||| b ||| c) &&& (2 ^ k - 1) = 0 ↔ 2 ^ k ∣ a ∧ 2 ^ k ∣ b ∧ 2 ^ k ∣ c := by
  rw [Nat.and_two_pow_sub_one_eq_mod, Nat.or_mod_two_pow, Nat.or_mod_two_pow, Nat.or_eq_zero_iff,
    Nat.or_eq_zero_iff, Nat.dvd_iff_mod_eq_zero, Nat.dvd_iff_mod_eq_zero, Nat.dvd_iff_mod_eq_zero,
    and_assoc]

/-- The test of `alloc_init_section`. -/
theorem sectionMask_eq_zero {a b c : ℕ} :
    (a ||| b ||| c) &&& (sectionSize - 1) = 0 ↔ 2 ^ 20 ∣ a ∧ 2 ^ 20 ∣ b ∧ 2 ^ 20 ∣ c :=
  or_and_mask_eq_zero (k := 20)

/-- A page number as an address. -/
theorem pfn_shiftLeft (pfn : ℕ) : pfn <<< 12 = pfn * 4096 := by
  rw [Nat.shiftLeft_eq]

/-- A page number with its flags, as a word. -/
theorem pageWord {pfn prot : ℕ} (hp : prot < 2 ^ 12) :
    wrap 32 (pfn <<< 12 ||| prot) = pfn * 4096 % 2 ^ 32 + prot := by
  have hshift : pfn <<< 12 = pfn * 2 ^ 12 := Nat.shiftLeft_eq _ _
  rw [hshift, or_flags (Dvd.intro_left pfn rfl) hp, wrap]
  omega

/-- A stored word of the directory. -/
theorem setPmd_eq {st : Mmu} {i val : ℕ} (hi : i < 4096) :
    st.setPmd i val = some { st with pmd := Function.update st.pmd i (wrap 32 val) } :=
  if_pos hi

/-- A stored word of a page. -/
theorem setPte_eq {st : Mmu} {frame i val : ℕ} (hi : i < 1024) :
    st.setPte frame i val =
      some { st with
        pte := Function.update st.pte frame (Function.update (st.pte frame) i (wrap 32 val)) } :=
  if_pos hi

/-- The state after `m` sections from word `i` on. -/
structure SectionsDone (st st' : Mmu) (i m phys prot : ℕ) : Prop where
  /-- The words of the sections. -/
  stored : ∀ j, j < m → st'.pmd (i + j) = (phys + j * 2 ^ 20) % 2 ^ 32 + prot
  /-- The other words. -/
  pmd_other : ∀ j, j < i ∨ i + m ≤ j → st'.pmd j = st.pmd j
  /-- The pages. -/
  pte : st'.pte = st.pte
  /-- No page is taken. -/
  given : st'.given = st.given
  /-- Nothing is reported. -/
  bug : st'.bug = st.bug

/-- The loop over sections. -/
theorem sectionsLoop_done {m : ℕ} {st : Mmu} {i addr phys prot fuel : ℕ} (hm : 0 < m) (hi : i + m ≤ 4096)
    (hphys : 2 ^ 20 ∣ phys) (hlt : phys < 2 ^ 32) (hprot : prot < 2 ^ 20) (hf : m ≤ fuel) :
    ∃ st', sectionsLoop st i addr (addr + m * 2 ^ 20) phys prot fuel = some st' ∧
      SectionsDone st st' i m phys prot := by
  induction m generalizing st i addr phys fuel with
  | zero => omega
  | succ m ih =>
    obtain ⟨f, rfl⟩ : ∃ n, fuel = n + 1 := ⟨fuel - 1, by omega⟩
    have hword : wrap 32 (phys ||| prot) = phys + prot := by
      rw [or_flags hphys hprot]
      exact wrap_of_lt (by omega)
    rw [sectionsLoop, setPmd_eq (by omega), Option.bind_some, hword]
    by_cases hlast : m = 0
    · subst hlast
      rw [if_pos (by rw [sectionSize]; omega)]
      refine ⟨_, rfl, ?_, ?_, rfl, rfl, rfl⟩
      · intro j hj
        obtain rfl : j = 0 := by omega
        dsimp only
        rw [Nat.add_zero, Function.update_self]
        omega
      · intro j hj
        exact Function.update_of_ne (by omega) _ _
    · have hne : ¬addr + sectionSize = addr + (m + 1) * 2 ^ 20 := by
        rw [sectionSize]
        omega
      have hfin : addr + (m + 1) * 2 ^ 20 = addr + sectionSize + m * 2 ^ 20 := by
        rw [sectionSize]
        omega
      have hnext : 2 ^ 20 ∣ wrap 32 (phys + sectionSize) := by
        rw [wrap, sectionSize]
        omega
      rw [if_neg hne, hfin]
      obtain ⟨st', hrun, hd⟩ := @ih
        { st with pmd := Function.update st.pmd i (phys + prot) }
        (i + 1) (addr + sectionSize) _ f (by omega) (by omega) hnext (wrap_lt 32 _)
        (show m ≤ f by omega)
      refine ⟨st', hrun, ?_, ?_, hd.pte, hd.given, hd.bug⟩
      · intro j hj
        cases j with
        | zero =>
          rw [Nat.add_zero, hd.pmd_other i (by omega)]
          dsimp only
          rw [Function.update_self]
          omega
        | succ j =>
          have hs := hd.stored j (by omega)
          rw [wrap, sectionSize] at hs
          rw [show i + (j + 1) = i + 1 + j by omega, hs]
          omega
      · intro j hj
        rw [hd.pmd_other j (by omega)]
        exact Function.update_of_ne (by omega) _ _

/-- Sections up to an end that is not ahead. -/
theorem sectionsLoop_none {st : Mmu} {i addr fin phys prot : ℕ} (h : fin ≤ addr) (fuel : ℕ) :
    sectionsLoop st i addr fin phys prot fuel = none := by
  induction fuel generalizing st i addr phys with
  | zero => rfl
  | succ fuel ih =>
    have hpos : 0 < sectionSize := by decide
    rw [sectionsLoop]
    refine Option.bind_eq_none_iff.mpr fun st' _ => ?_
    rw [if_neg (by omega), ih (by omega)]

/-- The state after `m` pages from word `i` of a page on. -/
structure PagesDone (st st' : Mmu) (frame i m pfn prot : ℕ) : Prop where
  /-- The words of the pages. -/
  stored : ∀ j, j < m → st'.pte frame (i + j) = (pfn + j) * 4096 % 2 ^ 32 + prot
  /-- The other words of the page. -/
  pte_other : ∀ j, j < i ∨ i + m ≤ j → st'.pte frame j = st.pte frame j
  /-- The other pages. -/
  frame_other : ∀ f, f ≠ frame → st'.pte f = st.pte f
  /-- The directory. -/
  pmd : st'.pmd = st.pmd
  /-- No page is taken. -/
  given : st'.given = st.given
  /-- Nothing is reported. -/
  bug : st'.bug = st.bug

/-- The loop over pages. -/
theorem ptesLoop_done {m : ℕ} {st : Mmu} {frame i addr pfn prot fuel : ℕ} (hm : 0 < m)
    (hi : i + m ≤ 1024) (hprot : prot < 2 ^ 12) (hf : m ≤ fuel) :
    ∃ st', ptesLoop st frame i addr (addr + m * 4096) pfn prot fuel = some st' ∧
      PagesDone st st' frame i m pfn prot := by
  induction m generalizing st i addr pfn fuel with
  | zero => omega
  | succ m ih =>
    obtain ⟨f, rfl⟩ : ∃ n, fuel = n + 1 := ⟨fuel - 1, by omega⟩
    rw [ptesLoop, setPte_eq (by omega), Option.bind_some, pageWord hprot]
    by_cases hlast : m = 0
    · subst hlast
      rw [if_pos (by rw [pageSize])]
      refine ⟨_, rfl, ?_, ?_, ?_, rfl, rfl, rfl⟩
      · intro j hj
        obtain rfl : j = 0 := by omega
        dsimp only
        rw [Nat.add_zero, Function.update_self, Function.update_self, Nat.add_zero]
      · intro j hj
        dsimp only
        rw [Function.update_self, Function.update_of_ne (by omega)]
      · intro g hg
        exact Function.update_of_ne hg _ _
    · have hne : ¬addr + pageSize = addr + (m + 1) * 4096 := by
        rw [pageSize]
        omega
      have hfin : addr + (m + 1) * 4096 = addr + pageSize + m * 4096 := by
        rw [pageSize]
        omega
      rw [if_neg hne, hfin]
      obtain ⟨st', hrun, hd⟩ := @ih
        { st with
          pte := Function.update st.pte frame
            (Function.update (st.pte frame) i (pfn * 4096 % 2 ^ 32 + prot)) }
        (i + 1) (addr + pageSize) (pfn + 1) f (by omega) (by omega)
        (show m ≤ f by omega)
      refine ⟨st', hrun, ?_, ?_, ?_, hd.pmd, hd.given, hd.bug⟩
      · intro j hj
        cases j with
        | zero =>
          rw [Nat.add_zero, hd.pte_other i (by omega)]
          dsimp only
          rw [Function.update_self, Function.update_self, Nat.add_zero]
        | succ j =>
          rw [show i + (j + 1) = i + 1 + j by omega, hd.stored j (by omega),
            show pfn + (j + 1) = pfn + 1 + j by omega]
      · intro j hj
        rw [hd.pte_other j (by omega)]
        dsimp only
        rw [Function.update_self, Function.update_of_ne (by omega)]
      · intro g hg
        rw [hd.frame_other g hg]
        exact Function.update_of_ne hg _ _

/-- Pages up to an end that is not ahead. -/
theorem ptesLoop_none {st : Mmu} {frame i addr fin pfn prot : ℕ} (h : fin ≤ addr) (fuel : ℕ) :
    ptesLoop st frame i addr fin pfn prot fuel = none := by
  induction fuel generalizing st i addr pfn with
  | zero => rfl
  | succ fuel ih =>
    have hpos : 0 < pageSize := by decide
    rw [ptesLoop]
    refine Option.bind_eq_none_iff.mpr fun st' _ => ?_
    rw [if_neg (by omega), ih (by omega)]

/-- The index of an address in its table. -/
theorem pteIndex_eq (addr : ℕ) : pteIndex addr = addr / 4096 % 512 := by
  have h : ptrsPerPte - 1 = 2 ^ 9 - 1 := rfl
  rw [pteIndex, h, Nat.and_two_pow_sub_one_eq_mod, Nat.shiftRight_eq_div_pow]

/-- Rounding down to a page. -/
theorem alignDown_page {x : ℕ} (hx : x < 2 ^ 32) : alignDown 32 x pageSize = x / 4096 * 4096 := by
  have h : alignDown 32 x (2 ^ 12) = x - x % 2 ^ 12 := alignDown_two_pow hx (by decide)
  have hp : pageSize = 2 ^ 12 := rfl
  rw [hp, h]
  omega

/-- One bit of a word. -/
theorem and_two_pow_eq (x k : ℕ) : x &&& 2 ^ k = 2 ^ k * (x / 2 ^ k % 2) := by
  rw [Nat.and_two_pow, Nat.testBit_eq_decide_div_mod_eq]
  by_cases hb : x / 2 ^ k % 2 = 1
  · rw [decide_eq_true hb, hb, Bool.toNat_true, Nat.mul_comm]
  · rw [decide_eq_false hb, show x / 2 ^ k % 2 = 0 by omega, Bool.toNat_false, Nat.zero_mul, Nat.mul_zero]

/-- The half of its group an address is in. -/
theorem and_sectionSize_eq (addr : ℕ) : addr &&& sectionSize ≠ 0 ↔ addr / 2 ^ 20 % 2 = 1 := by
  rw [sectionSize, and_two_pow_eq]
  omega

/-- `pmd_bad` by the type of the word. -/
theorem pmdBad_eq (st : Mmu) (i : ℕ) : pmdBad st i = decide (st.pmd i / 2 % 2 = 1) := by
  have h : st.pmd i &&& 2 = 2 * (st.pmd i / 2 % 2) := and_two_pow_eq _ 1
  rw [pmdBad, h]
  exact decide_eq_decide.mpr (by omega)

/-- The end of an address's piece is its group's, or the end of the range; a boundary that wraps
counts as behind the range. -/
theorem pgdAddrEnd_min {addr fin : ℕ} (hfin : 0 < fin) (hlt : fin < 2 ^ 64) (hle : addr ≤ fin) :
    pgdAddrEnd addr fin = min ((addr / 2 ^ 21 + 1) * 2 ^ 21) fin := by
  have hend : wrapSub 64 fin 1 = fin - 1 := wrapSub_of_le hlt hfin
  obtain hsmall | hlarge : addr + 2 ^ 21 < 2 ^ 64 ∨ 2 ^ 64 ≤ addr + 2 ^ 21 := by omega
  · have hbound : alignDown 64 (addr + pgdirSize) pgdirSize = (addr / 2 ^ 21 + 1) * 2 ^ 21 := by
      rw [pgdirSize, alignDown_two_pow hsmall (by omega)]
      omega
    rw [pgdAddrEnd, hbound, hend, wrapSub_of_le (by omega) (by omega)]
    by_cases h : (addr / 2 ^ 21 + 1) * 2 ^ 21 - 1 < fin - 1
    · rw [if_pos h, Nat.min_eq_left (by omega)]
    · rw [if_neg h, Nat.min_eq_right (by omega)]
  · have hwrap : BitVec.ofNat 64 (addr + pgdirSize) = BitVec.ofNat 64 (addr + pgdirSize - 2 ^ 64) := by
      refine BitVec.eq_of_toNat_eq ?_
      rw [BitVec.toNat_ofNat, BitVec.toNat_ofNat, pgdirSize]
      omega
    have hbound : alignDown 64 (addr + pgdirSize) pgdirSize = 0 := by
      have hdown : alignDown 64 (addr + pgdirSize - 2 ^ 64) pgdirSize = 0 := by
        rw [pgdirSize, alignDown_two_pow (by omega) (by omega)]
        omega
      rw [alignDown, hwrap]
      exact hdown
    rw [pgdAddrEnd, hbound, hend, wrapSub_zero_one (by decide), if_neg (by omega),
      Nat.min_eq_right (by omega)]

/-- The end of an address's piece is its group's, or the end of the range. -/
theorem pgdAddrEnd_eq {addr fin : ℕ} (hfin : 0 < fin) (hlt : fin < 2 ^ 63) (hle : addr ≤ fin) :
    pgdAddrEnd addr fin = min ((addr / 2 ^ 21 + 1) * 2 ^ 21) fin :=
  pgdAddrEnd_min hfin (hlt.trans (by decide)) hle

end BiscuitOS.MmuStores
