import Mathlib

/-!
# Aligned blocks of power-of-two size

The arithmetic of buddies, and sets of disjoint aligned blocks in which no
two buddies occur. Taking a block out and putting one in are characterized
by the addresses they cover.
-/

namespace BiscuitOS.DyadicBlock

/-- The buddy of an aligned block: the other half of the block of the next order. -/
def buddy (p o : ℕ) : ℕ := p ^^^ 2 ^ o

/-- The block of the next order that a block and its buddy form. -/
def parent (p o : ℕ) : ℕ := buddy p o &&& p

/-- Flipping the lowest bit. -/
theorem xor_one_eq (m : ℕ) : m ^^^ 1 = if m % 2 = 0 then m + 1 else m - 1 := by
  have hd : (m ^^^ 1) / 2 = m / 2 := by
    rw [Nat.xor_div_two]
    exact Nat.xor_zero _
  have hm : (m ^^^ 1) % 2 = (m + 1) % 2 := Nat.xor_mod_two_eq
  split <;> omega

/-- Clearing the lowest bit by meeting the neighbour. -/
theorem and_xor_one_eq (m : ℕ) : (m ^^^ 1) &&& m = m - m % 2 := by
  rw [xor_one_eq]
  have hd : ∀ a b : ℕ, a / 2 = b / 2 → a % 2 ≠ b % 2 → a &&& b = a - a % 2 := fun a b hdiv hne => by
    have h1 : (a &&& b) / 2 = a / 2 := by
      rw [Nat.and_div_two, ← hdiv, Nat.and_self]
    have h2 : (a &&& b) % 2 = 0 := by
      have h3 := Nat.and_mod_two_eq_one (a := a) (b := b)
      omega
    omega
  split
  · rw [hd (m + 1) m (by omega) (by omega)]
    omega
  · rw [hd (m - 1) m (by omega) (by omega)]
    omega

/-- The two positions of an aligned block: lower half, or upper half of its parent. -/
theorem buddy_cases {p o : ℕ} (h : 2 ^ o ∣ p) :
    (2 ^ (o + 1) ∣ p ∧ buddy p o = p + 2 ^ o ∧ parent p o = p) ∨
    (2 ^ o ≤ p ∧ 2 ^ (o + 1) ∣ p - 2 ^ o ∧ buddy p o = p - 2 ^ o ∧ parent p o = p - 2 ^ o) := by
  unfold parent
  obtain ⟨m, rfl⟩ := h
  have hx : buddy (2 ^ o * m) o = 2 ^ o * (m ^^^ 1) := by
    have hs := Nat.shiftLeft_xor_distrib (a := m) (b := 1) (i := o)
    rw [Nat.shiftLeft_eq, Nat.shiftLeft_eq, Nat.shiftLeft_eq, Nat.one_mul] at hs
    rw [buddy, Nat.mul_comm, ← hs, Nat.mul_comm]
  have ha : buddy (2 ^ o * m) o &&& (2 ^ o * m) = 2 ^ o * (m - m % 2) := by
    have hs := Nat.shiftLeft_and_distrib (a := m ^^^ 1) (b := m) (i := o)
    rw [Nat.shiftLeft_eq, Nat.shiftLeft_eq, Nat.shiftLeft_eq] at hs
    rw [hx, Nat.mul_comm, Nat.mul_comm (2 ^ o) m, ← hs, and_xor_one_eq, Nat.mul_comm]
  have hsucc : 2 ^ (o + 1) = 2 ^ o * 2 := pow_succ 2 o
  rw [ha, hx, xor_one_eq, hsucc]
  by_cases hm : m % 2 = 0
  · refine Or.inl ⟨Nat.mul_dvd_mul_left _ (Nat.dvd_of_mod_eq_zero hm), ?_, ?_⟩
    · rw [if_pos hm, Nat.mul_add, Nat.mul_one]
    · rw [hm, Nat.sub_zero]
  · have hsub : 2 ^ o * m - 2 ^ o = 2 ^ o * (m - 1) := by
      rw [Nat.mul_sub, Nat.mul_one]
    refine Or.inr ⟨Nat.le_mul_of_pos_right _ (by omega), ?_, ?_, ?_⟩
    · rw [hsub]
      exact Nat.mul_dvd_mul_left _ (by omega)
    · rw [if_neg hm, hsub]
    · rw [hsub, show m % 2 = 1 by omega]

/-- A lower half. -/
theorem buddy_lower {p o : ℕ} (h : 2 ^ (o + 1) ∣ p) : buddy p o = p + 2 ^ o ∧ parent p o = p := by
  rcases buddy_cases (Nat.dvd_trans (Nat.pow_dvd_pow 2 (Nat.le_succ o)) h) with hl | ⟨hle, hu, -⟩
  · exact hl.2
  · have hd : 2 ^ (o + 1) ∣ 2 ^ o := by
      have hs := Nat.dvd_sub h hu
      rwa [Nat.sub_sub_self hle] at hs
    have hc := Nat.le_of_dvd (Nat.two_pow_pos o) hd
    rw [pow_succ] at hc
    have hpos := Nat.two_pow_pos o
    omega

/-- An upper half. -/
theorem buddy_upper {p o : ℕ} (h : 2 ^ o ∣ p) (hn : ¬ 2 ^ (o + 1) ∣ p) :
    2 ^ o ≤ p ∧ 2 ^ (o + 1) ∣ p - 2 ^ o ∧ buddy p o = p - 2 ^ o ∧ parent p o = p - 2 ^ o := by
  rcases buddy_cases h with hl | hu
  · exact absurd hl.1 hn
  · exact hu

/-- The buddy of the buddy is the block itself. -/
theorem buddy_buddy (p o : ℕ) : buddy (buddy p o) o = p := by
  rw [buddy, buddy, Nat.xor_assoc, Nat.xor_self, Nat.xor_zero]

/-- The buddy of the upper half. -/
theorem buddy_half {p o : ℕ} (h : 2 ^ (o + 1) ∣ p) : buddy (p + 2 ^ o) o = p := by
  rw [← (buddy_lower h).1, buddy_buddy]

/-- The parent is aligned to its order. -/
theorem parent_dvd {p o : ℕ} (h : 2 ^ o ∣ p) : 2 ^ (o + 1) ∣ parent p o := by
  rcases buddy_cases h with ⟨hd, -, hp⟩ | ⟨-, hd, -, hp⟩
  · rw [hp]
    exact hd
  · rw [hp]
    exact hd

/-- Buddies and parents may be computed on the index within a larger aligned block. -/
theorem index_eq {p o w : ℕ} (h : 2 ^ o ∣ p) (how : o < w) :
    p + buddy (p % 2 ^ w) o - p % 2 ^ w = buddy p o ∧
    p + parent (p % 2 ^ w) o - p % 2 ^ w = parent p o ∧
    parent (p % 2 ^ w) o = parent p o % 2 ^ w := by
  have hle : p % 2 ^ w ≤ p := Nat.mod_le p _
  have hdw : 2 ^ (o + 1) ∣ 2 ^ w := Nat.pow_dvd_pow 2 how
  have hiff : 2 ^ (o + 1) ∣ p % 2 ^ w ↔ 2 ^ (o + 1) ∣ p := Nat.dvd_mod_iff hdw
  by_cases hd : 2 ^ (o + 1) ∣ p
  · obtain ⟨h1, h2⟩ := buddy_lower hd
    obtain ⟨h3, h4⟩ := buddy_lower (hiff.mpr hd)
    rw [h1, h2, h3, h4]
    omega
  · have hr : 2 ^ o ∣ p % 2 ^ w := (Nat.dvd_mod_iff (Nat.pow_dvd_pow 2 how.le)).mpr h
    obtain ⟨-, -, h1, h2⟩ := buddy_upper h hd
    obtain ⟨hpr, -, h3, h4⟩ := buddy_upper hr (fun hc => hd (hiff.mp hc))
    rw [h1, h2, h3, h4]
    have hmod : (p - 2 ^ o) % 2 ^ w = p % 2 ^ w - 2 ^ o := by
      have hdiv := Nat.div_add_mod p (2 ^ w)
      have hlt := Nat.mod_lt p (Nat.two_pow_pos w)
      have hsplit : p - 2 ^ o = (p % 2 ^ w - 2 ^ o) + 2 ^ w * (p / 2 ^ w) := by omega
      rw [hsplit, Nat.add_mul_mod_self_left, Nat.mod_eq_of_lt (by omega)]
    rw [hmod]
    omega

/-- The addresses of a block. -/
def span (p o : ℕ) : Set ℕ := Set.Ico p (p + 2 ^ o)

/-- The addresses covered by a set of blocks, each given by its first address and its order. -/
def covered (F : Set (ℕ × ℕ)) : Set ℕ := {a | ∃ b ∈ F, a ∈ span b.1 b.2}

/-- Disjoint aligned blocks of order at most `top`, without two buddies below `top`. -/
structure Wf (top : ℕ) (F : Set (ℕ × ℕ)) : Prop where
  order_le : ∀ p o, (p, o) ∈ F → o ≤ top
  aligned : ∀ p o, (p, o) ∈ F → 2 ^ o ∣ p
  apart : ∀ b ∈ F, ∀ c ∈ F, b ≠ c → Disjoint (span b.1 b.2) (span c.1 c.2)
  nobuddy : ∀ p o, (p, o) ∈ F → o < top → (buddy p o, o) ∉ F

variable {top p o : ℕ} {F : Set (ℕ × ℕ)}

/-- An address is covered when some block contains it. -/
theorem mem_covered {a : ℕ} : a ∈ covered F ↔ ∃ b ∈ F, a ∈ span b.1 b.2 := by
  simp only [covered, Set.mem_ofPred_eq]

/-- The first address belongs to the block. -/
theorem mem_span_self (p o : ℕ) : p ∈ span p o :=
  Set.mem_Ico.mpr ⟨le_refl p, Nat.lt_add_of_pos_right (Nat.two_pow_pos o)⟩

/-- The two halves of a block. -/
theorem span_succ (p o : ℕ) : span p (o + 1) = span p o ∪ span (p + 2 ^ o) o := by
  ext a
  simp only [span, Set.mem_union, Set.mem_Ico, pow_succ]
  omega

/-- A block and its buddy share no address. -/
theorem span_halves (p o : ℕ) : Disjoint (span p o) (span (p + 2 ^ o) o) := by
  rw [Set.disjoint_left]
  intro a h1 h2
  simp only [span, Set.mem_Ico] at h1 h2
  omega

/-- The parent consists of the block and its buddy. -/
theorem span_parent (h : 2 ^ o ∣ p) :
    span (parent p o) (o + 1) = span p o ∪ span (buddy p o) o := by
  rcases buddy_cases h with ⟨-, hb, hp⟩ | ⟨hle, -, hb, hp⟩
  · rw [hp, hb, span_succ]
  · rw [hp, hb, span_succ, Nat.sub_add_cancel hle, Set.union_comm]

/-- Two blocks that start at one address are the same. -/
theorem Wf.start_unique (h : Wf top F) {o' : ℕ} (h1 : (p, o) ∈ F) (h2 : (p, o') ∈ F) : o = o' := by
  by_contra hne
  have hd := h.apart _ h1 _ h2 (fun he => hne (Prod.mk.inj he).2)
  exact Set.disjoint_left.mp hd (mem_span_self p o) (mem_span_self p o')

/-- No block at all. -/
theorem wf_empty (top : ℕ) : Wf top ∅ where
  order_le _ _ h := absurd h (Set.notMem_empty _)
  aligned _ _ h := absurd h (Set.notMem_empty _)
  apart _ h := absurd h (Set.notMem_empty _)
  nobuddy _ _ h := absurd h (Set.notMem_empty _)

/-- Taking a block out. -/
theorem Wf.take (h : Wf top F) (b : ℕ × ℕ) : Wf top (F \ {b}) where
  order_le p o hm := h.order_le p o hm.1
  aligned p o hm := h.aligned p o hm.1
  apart b hb c hc := h.apart b hb.1 c hc.1
  nobuddy p o hm ho hn := h.nobuddy p o hm.1 ho hn.1

/-- The addresses left after taking a block out. -/
theorem Wf.covered_take (h : Wf top F) (hm : (p, o) ∈ F) :
    covered (F \ {(p, o)}) = covered F \ span p o := by
  ext a
  simp only [mem_covered, Set.mem_sdiff, Set.mem_singleton_iff]
  constructor
  · rintro ⟨b, ⟨hb, hne⟩, ha⟩
    exact ⟨⟨b, hb, ha⟩, fun hp => Set.disjoint_left.mp (h.apart b hb _ hm hne) ha hp⟩
  · rintro ⟨⟨b, hb, ha⟩, hn⟩
    exact ⟨b, ⟨hb, fun he => hn (by rw [he] at ha; exact ha)⟩, ha⟩

/-- A block of the set is covered. -/
theorem span_subset_covered (hm : (p, o) ∈ F) : span p o ⊆ covered F :=
  fun _ ha => mem_covered.mpr ⟨(p, o), hm, ha⟩

/-- Putting a free block in whose buddy is not there. -/
theorem Wf.put (h : Wf top F) (ho : o ≤ top) (hal : 2 ^ o ∣ p)
    (hfree : Disjoint (covered F) (span p o)) (hnb : o < top → (buddy p o, o) ∉ F) :
    Wf top (insert (p, o) F) := by
  have hout : ∀ c ∈ F, Disjoint (span c.1 c.2) (span p o) := fun c hc =>
    hfree.mono_left fun _ ha => mem_covered.mpr ⟨c, hc, ha⟩
  refine ⟨fun q k hm => ?_, fun q k hm => ?_, fun b hb c hc hne => ?_, fun q k hm hk hn => ?_⟩
  · rcases Set.mem_insert_iff.mp hm with he | hold
    · rw [(Prod.mk.inj he).2]
      exact ho
    · exact h.order_le q k hold
  · rcases Set.mem_insert_iff.mp hm with he | hold
    · rw [(Prod.mk.inj he).1, (Prod.mk.inj he).2]
      exact hal
    · exact h.aligned q k hold
  · rcases Set.mem_insert_iff.mp hb with rfl | hb
    · rcases Set.mem_insert_iff.mp hc with rfl | hc
      · exact absurd rfl hne
      · exact (hout c hc).symm
    · rcases Set.mem_insert_iff.mp hc with rfl | hc
      · exact hout b hb
      · exact h.apart b hb c hc hne
  · rcases Set.mem_insert_iff.mp hm with he | hold
    · have hq : q = p := (Prod.mk.inj he).1
      have hko : k = o := (Prod.mk.inj he).2
      rw [hq, hko] at hn
      rw [hko] at hk
      rcases Set.mem_insert_iff.mp hn with hs | hn
      · have hb : buddy p o = p := (Prod.mk.inj hs).1
        have hpos := Nat.two_pow_pos o
        rcases buddy_cases hal with ⟨-, h1, -⟩ | ⟨h0, -, h1, -⟩ <;> omega
      · exact hnb hk hn
    · rcases Set.mem_insert_iff.mp hn with hs | hn
      · have hko : k = o := (Prod.mk.inj hs).2
        rw [hko] at hk hold hs
        refine hnb hk ?_
        rw [← (Prod.mk.inj hs).1, buddy_buddy]
        exact hold
      · exact h.nobuddy q k hold hk hn

/-- The addresses after putting a block in. -/
theorem covered_put (F : Set (ℕ × ℕ)) (p o : ℕ) :
    covered (insert (p, o) F) = covered F ∪ span p o := by
  ext a
  simp only [mem_covered, Set.mem_union]
  constructor
  · rintro ⟨b, hb, ha⟩
    rcases Set.mem_insert_iff.mp hb with rfl | hb
    · exact Or.inr ha
    · exact Or.inl ⟨b, hb, ha⟩
  · rintro (⟨b, hb, ha⟩ | ha)
    · exact ⟨b, Set.mem_insert_of_mem _ hb, ha⟩
    · exact ⟨_, Set.mem_insert _ _, ha⟩

end BiscuitOS.DyadicBlock
