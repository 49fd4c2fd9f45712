import BiscuitOS.PercpuModel
import BiscuitOS.BlockTiling

/-!
# What allocating and freeing do to the blocks of a chunk

Each function of the area map is described on the list of its entries: which
entries it replaces and by which. `pcpu_free_area` is described where the
entries after two merged blocks are moved to their right place.
-/

namespace BiscuitOS.PercpuBlocks

open MachineWord ArrayWindow BlockTiling PercpuModel

/-- No block, or one block of a size that is not zero. -/
def optionalBlock (x : ℤ) : List ℤ := if x ≠ 0 then [x] else []

/-- The entry after `A`. -/
theorem map_of_entries {c : PcpuChunk} {A B : List ℤ} {x : ℤ} (h : c.entries = A ++ x :: B) :
    c.map A.length = x := by
  have ha := apply_of_window h
  rwa [Nat.zero_add] at ha

/-- Storing at the place after `A`. -/
theorem window_store {m : ℕ → ℤ} {n : ℕ} {A B : List ℤ} {x : ℤ} (y : ℤ)
    (h : window m 0 n = A ++ x :: B) :
    window (Function.update m A.length y) 0 n = A ++ y :: B := by
  have hu := window_update y h
  rwa [Nat.zero_add] at hu

/-- Storing at the place after the one after `A`. -/
theorem window_store_next {m : ℕ → ℤ} {n : ℕ} {A B : List ℤ} {a x : ℤ} (y : ℤ)
    (h : window m 0 n = A ++ a :: x :: B) :
    window (Function.update m (A.length + 1) y) 0 n = A ++ a :: y :: B := by
  have hu := window_store (A := A ++ [a]) (B := B) (x := x) y
    (by rw [h, List.append_assoc, List.singleton_append])
  rwa [List.length_append, List.length_singleton, List.append_assoc, List.singleton_append] at hu

/-- The number of entries in use. -/
theorem mapUsed_of_entries {c : PcpuChunk} {A B : List ℤ} {x : ℤ} (h : c.entries = A ++ x :: B) :
    c.mapUsed = A.length + 1 + B.length := by
  have hn := (window_parts h).2.2
  rw [List.length_cons] at hn
  omega

/-- `pcpu_split_block` puts `head` before and `tail` after what is left of the block. -/
theorem split_entries {c : PcpuChunk} {A B : List ℤ} {x : ℤ} (h : c.entries = A ++ x :: B)
    (head tail : ℤ) :
    (pcpuSplitBlock c A.length head tail).entries =
      A ++ (optionalBlock head ++ (x - head - tail) :: (optionalBlock tail ++ B)) := by
  have hx := map_of_entries h
  have hmoved : ∀ e, 0 < e →
      move c.map (A.length + e) A.length (c.mapUsed - A.length) A.length = x := fun e he => by
    rw [move, if_neg (by omega), hx]
  rw [pcpuSplitBlock, PcpuChunk.entries]
  by_cases hh : head = 0
  · by_cases ht : tail = 0
    · obtain ⟨gap, hg, hw⟩ := window_open h 0
      rw [List.length_eq_zero_iff.mp hg] at hw
      simp only [hh, ht, ne_eq, not_true_eq_false, if_false, optionalBlock, List.nil_append,
        sub_zero]
      exact hw
    · obtain ⟨gap, hg, hw⟩ := window_open h 1
      obtain ⟨g, rfl⟩ := List.length_eq_one_iff.mp hg
      simp only [hh, ht, ne_eq, not_true_eq_false, not_false_eq_true, if_false, if_true,
        optionalBlock, List.nil_append, sub_zero, zero_add, hmoved 1 Nat.one_pos]
      exact window_store_next tail (window_store (x - tail) hw)
  · by_cases ht : tail = 0
    · obtain ⟨gap, hg, hw⟩ := window_open h 1
      obtain ⟨g, rfl⟩ := List.length_eq_one_iff.mp hg
      simp only [hh, ht, ne_eq, not_true_eq_false, not_false_eq_true, if_false, if_true,
        optionalBlock, List.nil_append, sub_zero, add_zero, hmoved 1 Nat.one_pos]
      exact window_store head (window_store_next (x - head) hw)
    · obtain ⟨gap, hg, hw⟩ := window_open h 2
      obtain ⟨g, g', rfl⟩ := List.length_eq_two.mp hg
      have hhead := window_store head (window_store_next (x - head) hw)
      have hnext := window_store_next (x - head - tail) hhead
      have hlast := window_store_next (A := A ++ [head]) (B := B) (a := x - head - tail) (x := x)
        tail (by rw [hnext, List.append_assoc, List.singleton_append]; rfl)
      simp only [hh, ht, ne_eq, not_false_eq_true, if_true, optionalBlock,
        hmoved (1 + 1) (by omega), List.singleton_append]
      rw [Function.update_of_ne (by omega), Function.update_self]
      rwa [List.length_append, List.length_singleton, List.append_assoc,
        List.singleton_append] at hlast

/-- The bytes of a block that stay free behind an area of `size` bytes. -/
def tailOf (x head : ℤ) (size : ℕ) : ℤ :=
  if belowInt (x - head - size) then 0 else x - head - size

/-- The tail leaves enough for the area and is never negative. -/
theorem tailOf_bounds {x head : ℤ} {size : ℕ} (h : head + size ≤ x) :
    0 ≤ tailOf x head size ∧ tailOf x head size ≤ x - head - size := by
  rw [tailOf]
  split <;> omega

/-- A chunk whose block between `A` and `B` was taken. -/
structure Taken (c : PcpuChunk) (A B : List ℤ) (b head tail maxContig off : ℤ) (isLast : Bool)
    (r : ℤ × PcpuChunk) : Prop where
  /-- The area starts behind the head. -/
  offset : r.1 = off + head
  /-- The block is held and its free parts stand around it. -/
  entries : r.2.entries = A ++ (optionalBlock head ++ -b :: (optionalBlock tail ++ B))
  /-- The held part is no longer free. -/
  freeSize : r.2.freeSize = c.freeSize - b
  /-- The array is the same. -/
  mapAlloc : r.2.mapAlloc = c.mapAlloc
  /-- The hint covers the blocks passed before. -/
  passed : maxContig ≤ r.2.contigHint
  /-- The hint covers the head. -/
  headHint : head ≠ 0 → head ≤ r.2.contigHint
  /-- The hint covers the tail. -/
  tailHint : tail ≠ 0 → tail ≤ r.2.contigHint
  /-- The hint never shrinks before the last block. -/
  oldHint : isLast = false → c.contigHint ≤ r.2.contigHint

/-- Taking a block whose head stays a block of its own. -/
theorem takeBlock_apart (size off : ℕ) (isLast : Bool) (maxContig : ℤ) {c : PcpuChunk}
    {A B : List ℤ} {x head : ℤ} (h : c.entries = A ++ x :: B)
    (hkeep : head ≠ 0 → belowInt head = false ∧ c.map (A.length - 1) ≤ 0) :
    Taken c A B (x - head - tailOf x head size) head (tailOf x head size) maxContig off isLast
      (takeBlock c size isLast maxContig A.length off head) := by
  have habs : (decide (head ≠ 0 ∧ (belowInt head ∨ 0 < c.map (A.length - 1)))) = false := by
    refine decide_eq_false fun hc => ?_
    obtain ⟨hb, hm⟩ := hkeep hc.1
    rcases hc.2 with h1 | h1
    · rw [hb] at h1
      cases h1
    · omega
  have hx := map_of_entries h
  have hsplit : ∀ tail, (if head ≠ 0 ∨ tail ≠ 0 then pcpuSplitBlock c A.length head tail
      else c).entries =
      A ++ (optionalBlock head ++ (x - head - tail) :: (optionalBlock tail ++ B)) := fun tail => by
    split
    · exact split_entries h head tail
    · rename_i hz
      obtain ⟨rfl, rfl⟩ := not_or.mp hz |>.imp not_not.mp not_not.mp
      rw [h, optionalBlock, if_neg (not_not.mpr rfl), sub_zero, sub_zero]
      rfl
  have hrest : (if belowInt (x - head - size) then 0 else x - head - (size : ℤ)) =
      tailOf x head size := rfl
  unfold takeBlock
  simp only [habs, Bool.false_eq_true, if_false, hx, hrest]
  generalize tailOf x head size = tail
  have he := hsplit tail
  have hkept : ∀ s, s = (if head ≠ 0 ∨ tail ≠ 0 then pcpuSplitBlock c A.length head tail else c) →
      s.freeSize = c.freeSize ∧ s.mapAlloc = c.mapAlloc ∧ s.contigHint = c.contigHint := by
    rintro s rfl
    split <;> exact ⟨rfl, rfl, rfl⟩
  generalize (if head ≠ 0 ∨ tail ≠ 0 then pcpuSplitBlock c A.length head tail else c) = split
    at he hkept ⊢
  obtain ⟨hfree, halloc, hhint⟩ := hkept split rfl
  generalize hi : (if head ≠ 0 then A.length + 1 else A.length) = i
  have hA : (A ++ optionalBlock head).length = i := by
    rw [List.length_append, optionalBlock, ← hi]
    split <;> rfl
  rw [← List.append_assoc] at he
  have hm : split.map i = x - head - tail := hA ▸ map_of_entries he
  have hstore := window_store (-(x - head - tail)) he
  rw [hA, List.append_assoc] at hstore
  have hhead : head ≠ 0 → split.map (i - 1) = head := fun hz => by
    rw [optionalBlock, if_pos hz, List.append_assoc, List.singleton_append] at he
    rw [← hi, if_pos hz, Nat.add_sub_cancel]
    exact map_of_entries he
  have htail : tail ≠ 0 → split.map (i + 1) = tail := fun hz => by
    have he' : split.entries =
        (A ++ optionalBlock head ++ [x - head - tail]) ++ tail :: B := by
      rw [he, optionalBlock, optionalBlock, if_pos hz]
      simp only [List.append_assoc, List.cons_append, List.nil_append]
    have ht := map_of_entries he'
    rwa [List.length_append, hA, List.length_singleton] at ht
  have hmax : ∀ m : ℤ, m = (if tail ≠ 0 then max (split.map (i + 1))
      (if head ≠ 0 then max (split.map (i - 1)) maxContig else maxContig)
      else if head ≠ 0 then max (split.map (i - 1)) maxContig else maxContig) →
      maxContig ≤ m ∧ (head ≠ 0 → head ≤ m) ∧ (tail ≠ 0 → tail ≤ m) := by
    rintro m rfl
    by_cases hh : head = 0
    · by_cases ht : tail = 0
      · simp only [hh, ht, ne_eq, not_true_eq_false, if_false, le_refl, false_imp_iff, and_self]
      · simp only [hh, ht, ne_eq, not_true_eq_false, not_false_eq_true, if_false, if_true,
          htail ht, false_imp_iff, true_imp_iff, true_and]
        omega
    · by_cases ht : tail = 0
      · simp only [hh, ht, ne_eq, not_true_eq_false, not_false_eq_true, if_false, if_true,
          hhead hh, false_imp_iff, true_imp_iff, and_true]
        omega
      · simp only [hh, ht, ne_eq, not_false_eq_true, if_true, hhead hh, htail ht, true_imp_iff]
        omega
  generalize (if tail ≠ 0 then max (split.map (i + 1))
      (if head ≠ 0 then max (split.map (i - 1)) maxContig else maxContig)
      else if head ≠ 0 then max (split.map (i - 1)) maxContig else maxContig) = m at hmax ⊢
  obtain ⟨hpassed, hheadHint, htailHint⟩ := hmax m rfl
  have hle : ∀ z : ℤ, z ≤ m → z ≤ (if isLast then m else max split.contigHint m) := by
    intro z hz
    split <;> omega
  exact
    { offset := rfl
      entries := by
        dsimp only [PcpuChunk.entries]
        rw [hm]
        exact hstore
      freeSize := by rw [hm, hfree]
      mapAlloc := halloc
      passed := hle _ hpassed
      headHint := fun hz => hle _ (hheadHint hz)
      tailHint := fun hz => hle _ (htailHint hz)
      oldHint := fun hz => by
        rw [hz, ← hhint]
        exact le_max_left _ _ }

/-- The head of a block goes to the held block before it. -/
theorem absorb_entries (head : ℤ) {c : PcpuChunk} {A B : List ℤ} {p x : ℤ} (hp : p ≤ 0)
    (h : c.entries = (A ++ [p]) ++ x :: B) :
    (absorbHead c (A.length + 1) head).entries = A ++ (p - head) :: (x - head) :: B ∧
      (absorbHead c (A.length + 1) head).freeSize = c.freeSize - head ∧
      (absorbHead c (A.length + 1) head).contigHint = c.contigHint ∧
      (absorbHead c (A.length + 1) head).mapAlloc = c.mapAlloc ∧
      (absorbHead c (A.length + 1) head).mapUsed = c.mapUsed := by
  have hx := map_of_entries h
  rw [List.append_assoc, List.singleton_append] at h
  rw [List.length_append, List.length_singleton] at hx
  have hm := map_of_entries h
  have hn : ¬ 0 < c.map (A.length + 1 - 1) := by
    rw [Nat.add_sub_cancel, hm]
    omega
  rw [absorbHead, if_neg hn]
  dsimp only [PcpuChunk.entries]
  rw [Nat.add_sub_cancel, hm, Function.update_of_ne (by omega), hx]
  exact ⟨window_store_next _ (window_store _ h), rfl, rfl, rfl, rfl⟩

/-- Taking a block whose head goes to the block before it. -/
theorem takeBlock_absorbs {c : PcpuChunk} {size i off : ℕ} {isLast : Bool} {maxContig head : ℤ}
    (h : head ≠ 0 ∧ (belowInt head ∨ 0 < c.map (i - 1))) (hhead : 0 ≤ head) :
    takeBlock c size isLast maxContig i off head =
      takeBlock (absorbHead c i head) size isLast maxContig i (off + head.toNat) 0 := by
  have hz : (decide ((0 : ℤ) ≠ 0 ∧ (belowInt 0 ∨ 0 < (absorbHead c i head).map (i - 1)))) = false :=
    decide_eq_false fun hc => hc.1 rfl
  have hstart : (off : ℤ) + head = ((off + head.toNat : ℕ) : ℤ) := by omega
  unfold takeBlock
  simp only [decide_eq_true h, hz, if_true, Bool.false_eq_true, if_false, hstart]

/-- The first block that is large enough for an area has a gap before it that is too small for a
block, the first block starting at `off`. -/
def smallHead (size align : ℕ) : ℕ → List ℤ → Bool
  | _, [] => false
  | off, y :: R =>
    let head := (alignUp 32 off align : ℤ) - off
    if y < 0 then smallHead size align (off + y.natAbs) R
    else if y < toSigned 32 (head + size) then smallHead size align (off + y.natAbs) R
    else decide (head ≠ 0) && belowInt head

/-- Where the scan of `pcpu_alloc_area` over the blocks `R` ends. -/
inductive ScanEnd (c : PcpuChunk) (size align : ℕ) (maxContig : ℤ) (i off : ℕ) (R : List ℤ)
    (r : ℤ × PcpuChunk) : Prop
  /-- No block is large enough. -/
  | full (hint : ℤ) (result : r = (-1, { c with contigHint := hint })) (passed : maxContig ≤ hint)
      (covers : ∀ y ∈ R, 0 < y → y ≤ hint) : ScanEnd c size align maxContig i off R r
  /-- Block `x` is taken after the blocks `A`. -/
  | taken (A B : List ℤ) (x hint : ℤ) (parts : R = A ++ x :: B)
      (result : r = takeBlock c size (i + A.length + 1 = c.mapUsed) hint (i + A.length)
        (off + extent A) ((alignUp 32 (off + extent A) align : ℤ) - ((off + extent A : ℕ) : ℤ)))
      (free : 0 ≤ x)
      (fits : toSigned 32 ((alignUp 32 (off + extent A) align : ℤ) - ((off + extent A : ℕ) : ℤ) +
        size) ≤ x)
      (passed : maxContig ≤ hint) (covers : ∀ y ∈ A, 0 < y → y ≤ hint)
      (gap : smallHead size align off R =
        (decide ((alignUp 32 (off + extent A) align : ℤ) - ((off + extent A : ℕ) : ℤ) ≠ 0) &&
          belowInt ((alignUp 32 (off + extent A) align : ℤ) - ((off + extent A : ℕ) : ℤ)))) :
      ScanEnd c size align maxContig i off R r

/-- A scan that goes past its first block ends as the scan of the others. -/
theorem ScanEnd.skip {c : PcpuChunk} {size align : ℕ} {maxContig hint : ℤ} {i off : ℕ} {y : ℤ}
    {R : List ℤ} {r : ℤ × PcpuChunk} (hle : maxContig ≤ hint) (hy : 0 < y → y ≤ hint)
    (hskip : smallHead size align off (y :: R) = smallHead size align (off + y.natAbs) R)
    (h : ScanEnd c size align hint (i + 1) (off + y.natAbs) R r) :
    ScanEnd c size align maxContig i off (y :: R) r := by
  cases h with
  | full last result passed covers =>
    refine .full last result (hle.trans passed) fun z hz hpos => ?_
    rcases List.mem_cons.mp hz with rfl | hz
    · exact (hy hpos).trans passed
    · exact covers z hz hpos
  | taken A B x last parts result free fits passed covers gap =>
    have hoff : off + y.natAbs + extent A = off + extent (y :: A) := by
      rw [extent_cons, Nat.add_assoc]
    have hi : i + 1 + A.length = i + (y :: A).length := by
      rw [List.length_cons]
      omega
    rw [hoff, hi] at result
    rw [hoff] at fits gap
    refine .taken (y :: A) B x last (by rw [parts, List.cons_append]) result free fits
      (hle.trans passed) (fun z hz hpos => ?_) (hskip.trans gap)
    rcases List.mem_cons.mp hz with rfl | hz
    · exact (hy hpos).trans passed
    · exact covers z hz hpos

/-- The loop of `pcpu_alloc_area` is a scan of the blocks it has left. -/
theorem allocAreaFrom_scans (c : PcpuChunk) (size align : ℕ) (maxContig : ℤ) (i off n : ℕ) :
    ScanEnd c size align maxContig i off (window c.map i n)
      (allocAreaFrom c size align maxContig i off n) := by
  induction n generalizing maxContig i off with
  | zero => exact .full maxContig rfl le_rfl fun y hy => (by cases hy)
  | succ n ih =>
    rw [window_succ, allocAreaFrom]
    split
    · rename_i hneg
      exact .skip le_rfl (fun hpos => absurd hpos (by omega)) (by rw [smallHead, if_pos hneg])
        (ih _ _ _)
    · split
      · rename_i hneg hsmall
        exact .skip (le_max_right _ _) (fun _ => le_max_left _ _)
          (by rw [smallHead, if_neg hneg, if_pos hsmall]) (ih _ _ _)
      · rename_i hneg hfit
        exact .taken [] (window c.map (i + 1) n) (c.map i) maxContig rfl rfl (by omega)
          (Int.not_lt.mp hfit) le_rfl (fun y hy => (by cases hy))
          (by rw [smallHead, if_neg hneg, if_neg hfit, extent_nil, Nat.add_zero])

/-- The search of `pcpu_free_area` stops at the block that starts at `freeme`. -/
theorem findBlock_eq {c : PcpuChunk} {freeme i off n : ℕ} {A B : List ℤ} {x : ℤ}
    (hw : window c.map i n = A ++ x :: B) (hnz : ∀ y ∈ A, y ≠ 0) (hoff : off + extent A = freeme) :
    findBlock c freeme i off n = i + A.length := by
  induction A generalizing i off n with
  | nil =>
    cases n with
    | zero => cases hw
    | succ n =>
      rw [findBlock, if_pos (by rw [← hoff, extent_nil, Nat.add_zero]), List.length_nil,
        Nat.add_zero]
  | cons y A ih =>
    cases n with
    | zero => cases hw
    | succ n =>
      rw [window_succ, List.cons_append, List.cons.injEq] at hw
      have hy := hnz y List.mem_cons_self
      rw [extent_cons] at hoff
      rw [findBlock, if_neg (by omega), hw.1,
        ih hw.2 (fun z hz => hnz z (List.mem_cons_of_mem _ hz)) (by omega), List.length_cons]
      omega

/-- What `pcpu_free_area` does to the block before the freed block `x`. -/
inductive MergedPrevious (c : PcpuChunk) (A B : List ℤ) (x : ℤ) : PcpuChunk × ℕ → Prop
  /-- The block before is held, or there is none. -/
  | apart (held : ∀ y ∈ A.getLast?, y < 0) : MergedPrevious c A B x (c, A.length)
  /-- The block before is free. -/
  | merged (A' : List ℤ) (p : ℤ) (c' : PcpuChunk) (before : A = A' ++ [p]) (free : 0 ≤ p)
      (entries : c'.entries = A' ++ (p + x) :: B) (freeSize : c'.freeSize = c.freeSize)
      (contigHint : c'.contigHint = c.contigHint) (mapAlloc : c'.mapAlloc = c.mapAlloc)
      (mapUsed : c'.mapUsed ≤ c.mapUsed) : MergedPrevious c A B x (c', A'.length)

/-- `mergePrevious` on the list of entries. -/
theorem mergePrevious_entries {c : PcpuChunk} {A B : List ℤ} {x : ℤ}
    (h : c.entries = A ++ x :: B) : MergedPrevious c A B x (mergePrevious c A.length) := by
  rcases List.eq_nil_or_concat A with rfl | ⟨A', p, rfl⟩
  · rw [mergePrevious, if_neg (fun hc => (Nat.lt_irrefl _ hc.1))]
    exact .apart fun y hy => (by cases hy)
  · rw [List.concat_eq_append] at h ⊢
    have hx := map_of_entries h
    rw [List.append_assoc, List.singleton_append] at h
    have hp := map_of_entries h
    rw [mergePrevious, List.length_append, List.length_singleton, Nat.add_sub_cancel, hp]
    rw [List.length_append, List.length_singleton] at hx
    split
    · rename_i hc
      have hs := window_store (p + x) h
      have hclose := window_close (A := A' ++ [p + x]) (B := B) (x := x)
        (by rw [hs, List.append_assoc, List.singleton_append])
      rw [List.length_append, List.length_singleton, List.append_assoc,
        List.singleton_append] at hclose
      rw [hx]
      exact .merged A' p _ rfl hc.2 hclose rfl rfl rfl (Nat.sub_le _ _)
    · rename_i hc
      have hlen : A'.length + 1 = (A' ++ [p]).length := by
        rw [List.length_append, List.length_singleton]
      rw [hlen]
      refine .apart fun y hy => ?_
      rw [List.getLast?_append, List.getLast?_singleton, Option.some_or,
        Option.mem_some_iff] at hy
      omega

/-- What `pcpu_free_area` does to the block after the freed block `x`. -/
inductive MergedNext (c : PcpuChunk) (A B : List ℤ) (x : ℤ) : PcpuChunk → Prop
  /-- The block after is held, or there is none. -/
  | apart (held : ∀ y ∈ B.head?, y < 0) : MergedNext c A B x c
  /-- The block after is free. -/
  | merged (B' : List ℤ) (q : ℤ) (c' : PcpuChunk) (after : B = q :: B') (free : 0 ≤ q)
      (entries : c'.entries = A ++ (x + q) :: B') (freeSize : c'.freeSize = c.freeSize)
      (contigHint : c'.contigHint = c.contigHint) (mapAlloc : c'.mapAlloc = c.mapAlloc)
      (mapUsed : c'.mapUsed ≤ c.mapUsed) : MergedNext c A B x c'

/-- `mergeNext` on the list of entries, where the move starts at the right entry or there is
nothing to move. -/
theorem mergeNext_entries {c : PcpuChunk} {A B : List ℤ} {x : ℤ} (h : c.entries = A ++ x :: B)
    (hright : ∀ q B', B = q :: B' → 0 ≤ q → A.length = 1 ∨ B' = []) :
    MergedNext c A B x (mergeNext c A.length) := by
  have hused := mapUsed_of_entries h
  have hx := map_of_entries h
  cases B with
  | nil =>
    rw [mergeNext, if_neg fun hc => by
      rw [hused, List.length_nil] at hc
      omega]
    exact .apart fun y hy => (by cases hy)
  | cons q B' =>
    have hq : c.map (A.length + 1) = q := by
      have h' : c.entries = (A ++ [x]) ++ q :: B' := by
        rw [h, List.append_assoc, List.singleton_append]
      have hm := map_of_entries h'
      rwa [List.length_append, List.length_singleton] at hm
    rw [List.length_cons] at hused
    rw [mergeNext, hq, hx]
    split
    · rename_i hc
      have hs : window (Function.update c.map A.length (x + q)) 0 c.mapUsed =
          (A ++ [x + q]) ++ q :: B' := by
        rw [window_store (x + q) h, List.append_assoc, List.singleton_append]
      refine .merged B' q _ rfl hc.2 ?_ rfl rfl rfl (Nat.sub_le _ _)
      dsimp only [PcpuChunk.entries]
      rcases hright q B' rfl hc.2 with h1 | h1
      · have hclose := window_close hs
        have hsource : 1 + 2 = A.length + 1 + 1 := by omega
        rw [hsource]
        rwa [List.length_append, List.length_singleton, List.append_assoc,
          List.singleton_append] at hclose
      · subst h1
        rw [List.length_nil] at hused
        have hz : c.mapUsed - 1 = (A ++ [x + q]).length := by
          rw [List.length_append, List.length_singleton]
          omega
        rw [hz, window_move_before _ (by rw [List.length_append, List.length_singleton]; omega)]
        exact (window_parts hs).1
    · rename_i hc
      refine .apart fun y hy => ?_
      rw [List.head?_cons, Option.mem_some_iff] at hy
      omega

end BiscuitOS.PercpuBlocks
