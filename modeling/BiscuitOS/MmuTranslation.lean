import BiscuitOS.MmuStores

/-!
# Translation through the tables

What an address translates to, by a section word of the directory or by a word
of a second-level table. One piece of a mapping lies in one directory group;
in an empty group, and in a group that has a table, it gives its addresses
their translation and leaves every other address as it was.
-/

namespace BiscuitOS.MmuTranslation

open MachineWord MemblockModel MmuModel MmuStores

/-- How an address is translated: the physical address and the flags. -/
inductive Translation where
  | bySection (phys prot : ℕ)
  | byPage (phys prot : ℕ)
  deriving DecidableEq

/-- The translation of an address. -/
def translation (st : Mmu) (v : ℕ) : Option Translation :=
  if 2 ^ 32 ≤ v then none
  else if st.pmd (v / 2 ^ 20) % 4 = 2 then
    some (.bySection (st.pmd (v / 2 ^ 20) / 2 ^ 20 * 2 ^ 20 + v % 2 ^ 20) (st.pmd (v / 2 ^ 20) % 2 ^ 20))
  else if st.pmd (v / 2 ^ 20) % 4 = 1 then
    let w := st.pte (st.pmd (v / 2 ^ 20) / 4096) (v / 4096 % 512)
    if w % 2 = 1 then some (.byPage (w / 4096 * 4096 + v % 4096) (w % 4096)) else none
  else none

variable {st st' : Mmu} {v : ℕ}

/-- A translation depends on one word of the directory and one word of a table. -/
theorem translation_congr (hpmd : st'.pmd (v / 2 ^ 20) = st.pmd (v / 2 ^ 20))
    (hpte : st.pmd (v / 2 ^ 20) % 4 = 1 →
      st'.pte (st.pmd (v / 2 ^ 20) / 4096) (v / 4096 % 512) =
        st.pte (st.pmd (v / 2 ^ 20) / 4096) (v / 4096 % 512)) :
    translation st' v = translation st v := by
  unfold translation
  rw [hpmd]
  by_cases htable : st.pmd (v / 2 ^ 20) % 4 = 1
  · rw [hpte htable]
  · rw [if_neg htable, if_neg htable]

/-- An empty word translates nothing. -/
theorem translation_empty (h : st.pmd (v / 2 ^ 20) = 0) : translation st v = none := by
  unfold translation
  rw [h]
  split
  · rfl
  · rfl

/-- A section word. -/
theorem translation_section {p prot : ℕ} (hv : v < 2 ^ 32) (h : st.pmd (v / 2 ^ 20) = p + prot)
    (hp : 2 ^ 20 ∣ p) (hprot : prot < 2 ^ 20) (hsect : prot % 4 = 2) :
    translation st v = some (.bySection (p + v % 2 ^ 20) prot) := by
  have h4 : (p + prot) % 4 = 2 := by omega
  have hdiv : (p + prot) / 2 ^ 20 * 2 ^ 20 = p := by omega
  have hmod : (p + prot) % 2 ^ 20 = prot := by omega
  rw [translation, if_neg (by omega), h, if_pos h4, hdiv, hmod]

/-- A word with the flags of no section translates nothing. -/
theorem translation_fault {p prot : ℕ} (h : st.pmd (v / 2 ^ 20) = p + prot) (hp : 2 ^ 20 ∣ p)
    (hsect : prot % 4 = 0) : translation st v = none := by
  have h4 : (p + prot) % 4 = 0 := by omega
  rw [translation, h, h4]
  split
  · rfl
  · rfl

/-- A word of a table. -/
theorem translation_page {frame p prot : ℕ} (hv : v < 2 ^ 32) (htable : st.pmd (v / 2 ^ 20) % 4 = 1)
    (hframe : st.pmd (v / 2 ^ 20) / 4096 = frame) (h : st.pte frame (v / 4096 % 512) = p + prot)
    (hp : 4096 ∣ p) (hprot : prot < 2 ^ 12) (hpresent : prot % 2 = 1) :
    translation st v = some (.byPage (p + v % 4096) prot) := by
  have h2 : (p + prot) % 2 = 1 := by omega
  have hdiv : (p + prot) / 4096 * 4096 = p := by omega
  have hmod : (p + prot) % 4096 = prot := by omega
  rw [translation, if_neg (by omega), if_neg (by omega), if_pos htable, hframe, h]
  dsimp only
  rw [if_pos h2, hdiv, hmod]

/-- An empty word of a table translates nothing. -/
theorem translation_noPage {frame : ℕ} (htable : st.pmd (v / 2 ^ 20) % 4 = 1)
    (hframe : st.pmd (v / 2 ^ 20) / 4096 = frame) (h : st.pte frame (v / 4096 % 512) = 0) :
    translation st v = none := by
  rw [translation, if_neg (show ¬st.pmd (v / 2 ^ 20) % 4 = 2 by omega), if_pos htable, hframe, h]
  split
  · rfl
  · rfl

/-- A piece is mapped by sections. -/
def Sections (a n phys : ℕ) : Prop := 2 ^ 20 ∣ a ∧ 2 ^ 20 ∣ n ∧ 2 ^ 20 ∣ phys

instance (a n phys : ℕ) : Decidable (Sections a n phys) := inferInstanceAs (Decidable (_ ∧ _))

/-- What an address of a mapping translates to. -/
def target (type : MemType) (a n phys p : ℕ) : Option Translation :=
  if Sections a n phys then
    if type.protSect % 4 = 2 then some (.bySection p type.protSect) else none
  else some (.byPage p type.protPte)

variable (pages : EarlyPages)

/-- The tables in use are none of the pages still to be given. -/
def Fresh (st : Mmu) : Prop :=
  ∀ i < 4096, st.pmd i % 4 = 1 → ∀ j, st.given ≤ j → j < 2 ^ 20 → st.pmd i / 4096 ≠ pages.frame j

/-- A group with a table of its own, which is empty from an address on. -/
structure TableGroup (st : Mmu) (g x : ℕ) : Prop where
  /-- The first word names a table. -/
  first : st.pmd (2 * g) % 4 = 1
  /-- The second word names the same table. -/
  second : st.pmd (2 * g + 1) % 4 = 1 ∧ st.pmd (2 * g + 1) / 4096 = st.pmd (2 * g) / 4096
  /-- The table is empty from the address on. -/
  clear : ∀ i < 512, x ≤ g * 2 ^ 21 + i * 4096 → st.pte (st.pmd (2 * g) / 4096) i = 0
  /-- No other group has the table. -/
  own : ∀ i < 4096, i / 2 ≠ g → st.pmd i % 4 = 1 → st.pmd i / 4096 ≠ st.pmd (2 * g) / 4096

/-- A piece is mapped: its addresses are translated, and the others as before. -/
structure PieceDone (st st' : Mmu) (type : MemType) (g a n phys : ℕ) : Prop where
  /-- The addresses of the piece. -/
  inside : ∀ v, a ≤ v → v < n → translation st' v = target type a n phys ((phys + (v - a)) % 2 ^ 32)
  /-- The other addresses. -/
  outside : ∀ v, ¬(a ≤ v ∧ v < n) → translation st' v = translation st v
  /-- The other groups. -/
  pmd_other : ∀ i, i / 2 ≠ g → st'.pmd i = st.pmd i
  /-- The pages still to be given. -/
  fresh : Fresh pages st'
  /-- At most one page is taken. -/
  given_le : st'.given ≤ st.given + 1
  /-- Nothing is reported. -/
  bug : st'.bug = st.bug

/-- A piece of sections in any group. -/
theorem sectionsPiece_any {type : MemType} {g a n phys m : ℕ}
    (hd : SectionsDone st st' (a / 2 ^ 20) m phys type.protSect) (hs : Sections a n phys)
    (hn : n = a + m * 2 ^ 20) (ha : g * 2 ^ 21 ≤ a) (hle : n ≤ (g + 1) * 2 ^ 21) (hg : g < 2048)
    (hfresh : Fresh pages st) : PieceDone pages st st' type g a n phys := by
  obtain ⟨hda, hdn, hdp⟩ := hs
  obtain ⟨hprot, heven⟩ := type.protSect_lt
  refine ⟨?_, ?_, ?_, ?_, by rw [hd.given]; omega, hd.bug⟩
  · intro v hv hlt
    have hword := hd.stored (v / 2 ^ 20 - a / 2 ^ 20) (by omega)
    rw [show a / 2 ^ 20 + (v / 2 ^ 20 - a / 2 ^ 20) = v / 2 ^ 20 by omega] at hword
    have hdiv : 2 ^ 20 ∣ (phys + (v / 2 ^ 20 - a / 2 ^ 20) * 2 ^ 20) % 2 ^ 32 := by omega
    rw [target, if_pos ⟨hda, hdn, hdp⟩]
    by_cases hsect : type.protSect % 4 = 2
    · rw [if_pos hsect, translation_section (by omega) hword hdiv hprot hsect]
      congr 2
      omega
    · rw [if_neg hsect, translation_fault hword hdiv (by omega)]
  · intro v hv
    refine translation_congr (hd.pmd_other _ (by omega)) fun _ => ?_
    rw [hd.pte]
  · intro i hi
    exact hd.pmd_other i (by omega)
  · intro i hi htable j hj hlt
    by_cases hin : i < a / 2 ^ 20 ∨ a / 2 ^ 20 + m ≤ i
    · rw [hd.pmd_other i hin] at htable ⊢
      exact hfresh i hi htable j (hd.given ▸ hj) hlt
    · have hword := hd.stored (i - a / 2 ^ 20) (by omega)
      rw [show a / 2 ^ 20 + (i - a / 2 ^ 20) = i by omega] at hword
      omega

/-- The first word of a new table's group. -/
def tableWord (frame prot : ℕ) : ℕ := frame * 4096 + 2048 + prot

/-- The state with a new table for a group. -/
def populated (st : Mmu) (g prot : ℕ) : Mmu where
  pmd := Function.update (Function.update st.pmd (2 * g) (tableWord (pages.frame st.given) prot)) (2 * g + 1)
    (tableWord (pages.frame st.given) prot + 1024)
  pte := Function.update st.pte (pages.frame st.given) fun _ => 0
  given := st.given + 1
  bug := st.bug

/-- `early_pte_alloc` in a group without a table. -/
theorem earlyPteAlloc_empty {g addr prot : ℕ} (hg : g < 2048) (hempty : st.pmd (2 * g) = 0)
    (h4 : prot % 4 = 1) (hprot : prot < 2 ^ 10) :
    earlyPteAlloc pages st (2 * g) addr prot =
      some (populated pages st g prot, pages.frame st.given, addr / 4096 % 512) := by
  have hframe := pages.frame_lt st.given
  have hor : (pages.frame st.given * pageSize + pteHwtableOff) ||| prot =
      tableWord (pages.frame st.given) prot := by
    have hdvd : 2 ^ 10 ∣ pages.frame st.given * pageSize + pteHwtableOff := by
      rw [pageSize, pteHwtableOff]
      omega
    rw [or_flags hdvd hprot, tableWord, pageSize, pteHwtableOff]
  have hlt : tableWord (pages.frame st.given) prot + 1024 < 2 ^ 32 := by
    rw [tableWord]
    omega
  have hpopulate : pmdPopulate (earlyAlloc pages st).2 (2 * g) (earlyAlloc pages st).1 prot =
      some (populated pages st g prot) := by
    dsimp only [pmdPopulate, earlyAlloc]
    rw [hor, setPmd_eq (by omega), Option.bind_some, setPmd_eq (by omega), wrap_of_lt (by omega),
      wrap_of_lt hlt]
    rfl
  have hword : (populated pages st g prot).pmd (2 * g) = tableWord (pages.frame st.given) prot := by
    dsimp only [populated]
    rw [Function.update_of_ne (by omega), Function.update_self]
  have hbad : pmdBad (populated pages st g prot) (2 * g) = false := by
    rw [pmdBad_eq, hword, tableWord]
    exact decide_eq_false (by omega)
  have hshift : tableWord (pages.frame st.given) prot >>> 12 = pages.frame st.given := by
    rw [Nat.shiftRight_eq_div_pow, tableWord]
    omega
  rw [earlyPteAlloc, if_pos (show 2 * g < 2 * ptrsPerPgd by rw [ptrsPerPgd]; omega), if_pos hempty]
  dsimp only
  rw [hpopulate, Option.map_some, hbad, Bool.or_false, hword, hshift, pteIndex_eq]

/-- A piece of pages in an empty group. -/
theorem pagesPiece_empty {type : MemType} {g a n phys fuel : ℕ} (hg : g < 2048)
    (hempty : st.pmd (2 * g) = 0 ∧ st.pmd (2 * g + 1) = 0) (hfresh : Fresh pages st)
    (hgiven : st.given < 2 ^ 20) (ha : g * 2 ^ 21 ≤ a) (han : a < n) (hn : n ≤ (g + 1) * 2 ^ 21)
    (hda : 4096 ∣ a) (hdn : 4096 ∣ n) (hdp : 4096 ∣ phys)
    (hs : ¬Sections a n phys) (hl1 : type.protL1 ≠ 0) (hf : 512 ≤ fuel) :
    ∃ st', allocInitPte pages st (2 * g) a n (phys >>> 12) type fuel = some st' ∧
      PieceDone pages st st' type g a n phys ∧ TableGroup st' g n := by
  obtain ⟨h4, hl1lt, hpresent⟩ := type.protL1_table.resolve_left hl1
  have hframe := pages.frame_lt st.given
  obtain ⟨m, hm⟩ : ∃ m, n = a + m * 4096 := ⟨(n - a) / 4096, by omega⟩
  obtain ⟨st', hrun, hd⟩ := @ptesLoop_done m (populated pages st g type.protL1)
    (pages.frame st.given) (a / 4096 % 512) a (phys >>> 12) _ fuel (by omega) (by omega)
    type.protPte_lt (by omega)
  have hpfn : phys >>> 12 * 4096 = phys := by
    rw [Nat.shiftRight_eq_div_pow]
    omega
  have hfirst : st'.pmd (2 * g) = tableWord (pages.frame st.given) type.protL1 := by
    rw [hd.pmd]
    dsimp only [populated]
    rw [Function.update_of_ne (by omega), Function.update_self]
  have hsecond : st'.pmd (2 * g + 1) = tableWord (pages.frame st.given) type.protL1 + 1024 := by
    rw [hd.pmd]
    exact Function.update_self ..
  have hother : ∀ i, i / 2 ≠ g → st'.pmd i = st.pmd i := by
    intro i hi
    rw [hd.pmd]
    dsimp only [populated]
    rw [Function.update_of_ne (by omega), Function.update_of_ne (by omega)]
  have hgroup : ∀ v, v / 2 ^ 21 = g → st'.pmd (v / 2 ^ 20) % 4 = 1 ∧
      st'.pmd (v / 2 ^ 20) / 4096 = pages.frame st.given := by
    intro v hv
    rcases (show v / 2 ^ 20 = 2 * g ∨ v / 2 ^ 20 = 2 * g + 1 by omega) with h | h
    · rw [h, hfirst, tableWord]
      omega
    · rw [h, hsecond, tableWord]
      omega
  have hzero : ∀ i, i < a / 4096 % 512 ∨ a / 4096 % 512 + m ≤ i →
      st'.pte (pages.frame st.given) i = 0 := by
    intro i hi
    rw [hd.pte_other i hi]
    dsimp only [populated]
    rw [Function.update_self]
  refine ⟨st', ?_, ⟨?_, ?_, hother, ?_, ?_, ?_⟩, ⟨?_, ?_, ?_, ?_⟩⟩
  · rw [allocInitPte, earlyPteAlloc_empty pages hg hempty.1 h4 hl1lt, Option.bind_some, hm]
    exact hrun
  · intro v hv hlt
    have hword := hd.stored (v / 4096 % 512 - a / 4096 % 512) (by omega)
    rw [Nat.add_mul, hpfn, show a / 4096 % 512 + (v / 4096 % 512 - a / 4096 % 512) = v / 4096 % 512 by omega]
      at hword
    obtain ⟨htable, hfr⟩ := hgroup v (by omega)
    have hdiv : 4096 ∣ (phys + (v / 4096 % 512 - a / 4096 % 512) * 4096) % 2 ^ 32 := by omega
    rw [target, if_neg hs, translation_page (by omega) htable hfr hword hdiv type.protPte_lt hpresent]
    congr 2
    omega
  · intro v hv
    by_cases hin : v / 2 ^ 21 = g
    · obtain ⟨htable, hfr⟩ := hgroup v hin
      have hold : st.pmd (v / 2 ^ 20) = 0 := by
        rcases (show v / 2 ^ 20 = 2 * g ∨ v / 2 ^ 20 = 2 * g + 1 by omega) with h | h
        · rw [h, hempty.1]
        · rw [h, hempty.2]
      rw [translation_noPage htable hfr (hzero _ (by omega)), translation_empty hold]
    · by_cases hlarge : 2 ^ 32 ≤ v
      · rw [translation, translation, if_pos hlarge, if_pos hlarge]
      · refine translation_congr (hother _ (by omega)) fun htable => ?_
        have hne := hfresh _ (by omega) htable st.given le_rfl hgiven
        rw [hd.frame_other _ hne]
        dsimp only [populated]
        rw [Function.update_of_ne hne]
  · intro i hi htable j hj hlt
    rw [hd.given] at hj
    have hj' : st.given + 1 ≤ j := hj
    by_cases hin : i / 2 = g
    · have hfr : st'.pmd i / 4096 = pages.frame st.given := by
        rcases (show i = 2 * g ∨ i = 2 * g + 1 by omega) with rfl | rfl
        · rw [hfirst, tableWord]
          omega
        · rw [hsecond, tableWord]
          omega
      rw [hfr]
      intro he
      have := pages.frame_ne _ _ hgiven hlt he
      omega
    · rw [hother i hin] at htable ⊢
      exact hfresh i hi htable j (by omega) hlt
  · rw [hd.given]
    exact le_rfl
  · exact hd.bug
  · rw [hfirst, tableWord]
    omega
  · rw [hfirst, hsecond, tableWord]
    omega
  · intro i hi hx
    rw [hfirst, show tableWord (pages.frame st.given) type.protL1 / 4096 = pages.frame st.given by
      rw [tableWord]; omega]
    exact hzero i (by omega)
  · intro i hi hin htable
    rw [hother i hin] at htable ⊢
    rw [hfirst, show tableWord (pages.frame st.given) type.protL1 / 4096 = pages.frame st.given by
      rw [tableWord]; omega]
    exact hfresh i hi htable st.given le_rfl hgiven

end BiscuitOS.MmuTranslation
