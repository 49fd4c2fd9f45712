import BiscuitOS.BootmemModel

/-!
# Exclusive boot reservations

The bit loops by the bits they leave, the walk of `mark_bootmem` over a list
of nodes sorted by their first page, and the two rollbacks of an exclusive
reservation: inside the failing node, and over the nodes before it.
-/

namespace BiscuitOS.BootmemReserve

open MachineWord WordBitmap BootmemModel

/-- The place of a bit in 32-bit words. -/
theorem word_pos : 0 < 32 := by decide

/-- `test_and_set_bit` reads the bit and sets it. -/
theorem testAndSetBit_eq (nr : ℕ) (byte : Bitmap) :
    testAndSetBit nr byte = (if bit byte nr then 1 else 0, setBit byte nr) := by
  have hz := and_place_eq_zero_iff word_pos byte nr
  by_cases hb : bit byte nr = true
  · have hset : setBit byte nr = byte := by
      apply ext_bit word_pos
      intro i
      rw [bit_setBit word_pos]
      by_cases hi : i = nr <;> simp [hi, hb]
    have hne : byte (nr / 32) &&& 1#32 <<< (nr % 32) ≠ 0#32 := by
      simpa [place, hb] using hz.not
    simp [testAndSetBit, hne, hb, hset]
  · have hf : bit byte nr = false := by simpa using hb
    have heq : byte (nr / 32) &&& 1#32 <<< (nr % 32) = 0#32 := by
      simpa only [place] using hz.mpr hf
    simp [testAndSetBit, heq, hf, setBit, place]

/-- `test_and_clear_bit` clears the bit. -/
theorem testAndClearBit_snd (nr : ℕ) (byte : Bitmap) :
    (testAndClearBit nr byte).2 = clearBit byte nr := by
  simp only [testAndClearBit, clearBit, place]
  split <;> rfl

/-- `test_bit` reads the bit. -/
theorem testBit_eq (nr : ℕ) (byte : Bitmap) :
    testBit nr byte = if bit byte nr then 1 else 0 := by
  have hz := and_place_eq_zero_iff word_pos byte nr
  rw [BitVec.and_comm] at hz
  simp only [place] at hz
  by_cases hb : bit byte nr = true
  · have hne : 1#32 <<< (nr % 32) &&& byte (nr / 32) ≠ 0#32 := by simpa [hb] using hz.not
    simp [testBit, hne, hb]
  · have hf : bit byte nr = false := by simpa using hb
    simp [testBit, hz.mpr hf, hf]

/-- The loop of `__free` clears its indices. -/
theorem freeLoop_eq (map : Bitmap) (idx left : ℕ) :
    freeLoop map idx left = clearBits map idx left := by
  induction left generalizing map idx with
  | zero => rfl
  | succ left ih => simp only [freeLoop, clearBits, testAndClearBit_snd, ih]

/-- Over clear bits the loop of `__reserve` sets all its indices. -/
theorem reserveLoop_clear (exclusive : Bool) {map : Bitmap} {idx left : ℕ}
    (h : ∀ i, idx ≤ i → i < idx + left → bit map i = false) :
    reserveLoop exclusive map idx left = (none, setBits map idx left) := by
  induction left generalizing map idx with
  | zero => rfl
  | succ left ih =>
    have hhere : bit map idx = false := h idx le_rfl (by omega)
    have hlater : ∀ i, idx + 1 ≤ i → i < idx + 1 + left → bit (setBit map idx) i = false := by
      intro i hi hlt
      have hne : i ≠ idx := by omega
      simp [bit_setBit word_pos, hne, h i (by omega) (by omega)]
    simp [reserveLoop, testAndSetBit_eq, hhere, ih hlater, setBits]

/-- At a bit that is set already an exclusive reservation stops, with the indices before it
set. -/
theorem reserveLoop_busy {map : Bitmap} {idx left : ℕ}
    (h : ∃ i, idx ≤ i ∧ i < idx + left ∧ bit map i = true) :
    ∃ i, idx ≤ i ∧ i < idx + left ∧ (∀ j, idx ≤ j → j < i → bit map j = false) ∧
      reserveLoop true map idx left = (some i, setBits map idx (i - idx)) := by
  induction left generalizing map idx with
  | zero =>
    obtain ⟨i, hi, hlt, _⟩ := h
    omega
  | succ left ih =>
    by_cases hhere : bit map idx = true
    · have hset : setBit map idx = map := by
        apply ext_bit word_pos
        intro i
        rw [bit_setBit word_pos]
        by_cases hi : i = idx <;> simp [hi, hhere]
      refine ⟨idx, le_rfl, by omega, fun j hj hlt => by omega, ?_⟩
      simp [reserveLoop, testAndSetBit_eq, hhere, hset, setBits]
    · have hf : bit map idx = false := by simpa using hhere
      have hlater : ∃ i, idx + 1 ≤ i ∧ i < idx + 1 + left ∧ bit (setBit map idx) i = true := by
        obtain ⟨i, hi, hlt, hb⟩ := h
        have hne : i ≠ idx := fun he => by simp [he, hf] at hb
        exact ⟨i, by omega, by omega, by simp [bit_setBit word_pos, hb]⟩
      obtain ⟨i, hi, hlt, hclear, hrun⟩ := ih hlater
      have hsplit : i - idx = (i - (idx + 1)) + 1 := by omega
      have hbefore : ∀ j, idx ≤ j → j < i → bit map j = false := by
        intro j hj hji
        by_cases he : j = idx
        · rw [he, hf]
        · have hbit := hclear j (by omega) hji
          simpa [bit_setBit word_pos, he] using hbit
      refine ⟨i, by omega, by omega, hbefore, ?_⟩
      simp [reserveLoop, testAndSetBit_eq, hf, hrun, hsplit, setBits]

/-- The page frame belongs to the node. -/
def Owns (b : BootmemData) (p : ℕ) : Prop := b.nodeMinPfn ≤ p ∧ p < b.nodeLowPfn

/-- The page frame is marked reserved in the node. -/
def reservedPage (b : BootmemData) (p : ℕ) : Bool := bit b.nodeBootmemMap (p - b.nodeMinPfn)

/-- Some page of the range is reserved in the node. -/
def Busy (b : BootmemData) (start fin : ℕ) : Prop :=
  ∃ p, start ≤ p ∧ p < fin ∧ Owns b p ∧ reservedPage b p = true

/-- The node `b` after the pages of the range in the node `a` got the value `v`; the node
itself, its other pages and the padding of its bitmap are as before. -/
structure Marked (v : Bool) (start fin : ℕ) (a b : BootmemData) : Prop where
  /-- The first page. -/
  minPfn : b.nodeMinPfn = a.nodeMinPfn
  /-- The end. -/
  lowPfn : b.nodeLowPfn = a.nodeLowPfn
  /-- The place of the bitmap. -/
  mapAddr : b.mapAddr = a.mapAddr
  /-- The end of the last allocation. -/
  lastEndOff : b.lastEndOff = a.lastEndOff
  /-- The bits. -/
  bits : ∀ i, bit b.nodeBootmemMap i =
    if start ≤ a.nodeMinPfn + i ∧ a.nodeMinPfn + i < fin ∧ a.nodeMinPfn + i < a.nodeLowPfn then v
    else bit a.nodeBootmemMap i

/-- An index of the node as a 64-bit difference. -/
theorem index_eq (b : BootmemData) {p : ℕ} (h : b.nodeMinPfn ≤ p) (hp : p ≤ b.nodeLowPfn) :
    wrapSub 64 p b.nodeMinPfn = p - b.nodeMinPfn := by
  have hmax : maxPfn = 1048576 := by decide
  have hlow := b.lowPfn_le
  exact wrapSub_of_le (by omega) h

/-- The range in which two markings act may differ outside the node. -/
theorem Marked.congr {v : Bool} {s f s' f' : ℕ} {a b : BootmemData} (h : Marked v s f a b)
    (hp : ∀ p, Owns a p → (s ≤ p ∧ p < f ↔ s' ≤ p ∧ p < f')) : Marked v s' f' a b := by
  have hbits : ∀ i, bit b.nodeBootmemMap i =
      if s' ≤ a.nodeMinPfn + i ∧ a.nodeMinPfn + i < f' ∧ a.nodeMinPfn + i < a.nodeLowPfn then v
      else bit a.nodeBootmemMap i := by
    intro i
    rw [h.bits i]
    by_cases hlow : a.nodeMinPfn + i < a.nodeLowPfn
    · have hiff := hp (a.nodeMinPfn + i) ⟨by omega, hlow⟩
      simp only [hlow, and_true, hiff]
    · simp [hlow]
  exact ⟨h.minPfn, h.lowPfn, h.mapAddr, h.lastEndOff, hbits⟩

/-- A node without pages in the range is marked as it is. -/
theorem Marked.refl {v : Bool} {s f : ℕ} {a : BootmemData}
    (hp : ∀ p, Owns a p → ¬(s ≤ p ∧ p < f)) : Marked v s f a a := by
  have hempty : Marked v f f a a := by
    constructor
    · rfl
    · rfl
    · rfl
    · rfl
    · intro i
      rw [if_neg (by omega)]
  exact hempty.congr fun p hown => by
    have := hp p hown
    omega

/-- The pages are those of the node before the marking. -/
theorem Marked.owns {v : Bool} {s f : ℕ} {a b : BootmemData} (h : Marked v s f a b) (p : ℕ) :
    Owns b p ↔ Owns a p := by
  simp only [Owns, h.minPfn, h.lowPfn]

/-- Inside the node, `mark_bootmem_node` works on the indices of the pages. -/
theorem markBootmemNode_eq (b : BootmemData) {pos max : ℕ} (v : Bool) (flags : ℕ)
    (hpos : b.nodeMinPfn ≤ pos) (hle : pos ≤ max) (hmax : max ≤ b.nodeLowPfn) :
    markBootmemNode b pos max v flags =
      if v then reserve b (pos - b.nodeMinPfn) (max - b.nodeMinPfn) flags
      else (0, free b (pos - b.nodeMinPfn) (max - b.nodeMinPfn)) := by
  have hs := index_eq b hpos (by omega)
  have he := index_eq b (show b.nodeMinPfn ≤ max by omega) hmax
  simp only [markBootmemNode, hs, he]

/-- The indices of a range inside the node. -/
theorem index_run (b : BootmemData) {pos max : ℕ} (hpos : b.nodeMinPfn ≤ pos)
    (hmax : max ≤ b.nodeLowPfn) (i : ℕ) :
    (pos - b.nodeMinPfn ≤ i ∧
        i < pos - b.nodeMinPfn + (max - b.nodeMinPfn - (pos - b.nodeMinPfn))) ↔
      pos ≤ b.nodeMinPfn + i ∧ b.nodeMinPfn + i < max ∧ b.nodeMinPfn + i < b.nodeLowPfn := by
  omega

/-- Freeing pages of a node. -/
theorem markBootmemNode_free (b : BootmemData) {pos max : ℕ} (flags : ℕ)
    (hpos : b.nodeMinPfn ≤ pos) (hle : pos ≤ max) (hmax : max ≤ b.nodeLowPfn) :
    (markBootmemNode b pos max false flags).1 = 0 ∧
      Marked false pos max b (markBootmemNode b pos max false flags).2 := by
  rw [markBootmemNode_eq b false flags hpos hle hmax]
  simp only [Bool.false_eq_true, if_false, free, freeLoop_eq]
  constructor
  · trivial
  · constructor
    · rfl
    · rfl
    · rfl
    · rfl
    · intro i
      simp only [bit_clearBits word_pos, index_run b hpos hmax i]
      split <;> simp [*]

/-- Reserving clear pages of a node. -/
theorem markBootmemNode_clear (b : BootmemData) {pos max : ℕ} (flags : ℕ)
    (hpos : b.nodeMinPfn ≤ pos) (hle : pos ≤ max) (hmax : max ≤ b.nodeLowPfn)
    (hclear : ¬Busy b pos max) :
    (markBootmemNode b pos max true flags).1 = 0 ∧
      Marked true pos max b (markBootmemNode b pos max true flags).2 := by
  have hbits : ∀ i, pos - b.nodeMinPfn ≤ i →
      i < pos - b.nodeMinPfn + (max - b.nodeMinPfn - (pos - b.nodeMinPfn)) →
      bit b.nodeBootmemMap i = false := by
    intro i hi hlt
    by_contra hb
    have hback : b.nodeMinPfn + i - b.nodeMinPfn = i := by omega
    have hset : reservedPage b (b.nodeMinPfn + i) = true := by
      simpa [reservedPage, hback] using hb
    exact hclear ⟨b.nodeMinPfn + i, by omega, by omega, ⟨by omega, by omega⟩, hset⟩
  rw [markBootmemNode_eq b true flags hpos hle hmax]
  simp only [if_true, reserve, reserveLoop_clear _ hbits]
  constructor
  · trivial
  · constructor
    · rfl
    · rfl
    · rfl
    · rfl
    · intro i
      simp only [bit_setBits word_pos, index_run b hpos hmax i]
      split <;> simp [*]

/-- An exclusive reservation that meets a reserved page leaves the node's bitmap alone. -/
theorem markBootmemNode_busy (b : BootmemData) {pos max : ℕ}
    (hpos : b.nodeMinPfn ≤ pos) (hle : pos ≤ max) (hmax : max ≤ b.nodeLowPfn)
    (hbusy : Busy b pos max) :
    (markBootmemNode b pos max true bootmemExclusive).1 = -ebusy ∧
      Marked true pos pos b (markBootmemNode b pos max true bootmemExclusive).2 := by
  have hset : ∃ i, pos - b.nodeMinPfn ≤ i ∧
      i < pos - b.nodeMinPfn + (max - b.nodeMinPfn - (pos - b.nodeMinPfn)) ∧
      bit b.nodeBootmemMap i = true := by
    obtain ⟨p, hp, hlt, _, hb⟩ := hbusy
    exact ⟨p - b.nodeMinPfn, by omega, by omega, hb⟩
  obtain ⟨i, hi, hlt, hclear, hrun⟩ := reserveLoop_busy hset
  have hflag : decide (bootmemExclusive &&& bootmemExclusive ≠ 0) = true := by decide
  rw [markBootmemNode_eq b true bootmemExclusive hpos hle hmax]
  simp only [if_true, reserve, hflag, hrun, free, freeLoop_eq]
  constructor
  · trivial
  · constructor
    · rfl
    · rfl
    · rfl
    · rfl
    · intro j
      dsimp only
      rw [if_neg (by omega), bit_clearBits word_pos, bit_setBits word_pos]
      by_cases hin : pos - b.nodeMinPfn ≤ j ∧ j < pos - b.nodeMinPfn + (i - (pos - b.nodeMinPfn))
      · simp [hin, hclear j hin.1 (by omega)]
      · simp only [hin, decide_false, Bool.not_false, Bool.true_and, Bool.false_or]

/-- The two nodes share no page. -/
def Apart (a b : BootmemData) : Prop := ∀ p, Owns a p → ¬Owns b p

/-- The nodes are sorted by their first page and share no page. -/
structure Sorted (nodes : List BootmemData) : Prop where
  /-- The order in which `link_bootmem` keeps them. -/
  order : nodes.Pairwise fun a b => a.nodeMinPfn ≤ b.nodeMinPfn
  /-- No page belongs to two nodes. -/
  apart : nodes.Pairwise Apart

/-- Some node has the page. -/
def Covered (nodes : List BootmemData) (p : ℕ) : Prop := ∃ b ∈ nodes, Owns b p

/-- Some page of the range is reserved in some node. -/
def AnyBusy (nodes : List BootmemData) (start fin : ℕ) : Prop := ∃ b ∈ nodes, Busy b start fin

/-- The marking of `mark_bootmem` is refused: an exclusive reservation of a reserved page. -/
def Refused (v : Bool) (nodes : List BootmemData) (start fin : ℕ) : Prop :=
  v = true ∧ AnyBusy nodes start fin

/-- One node's part of the walk when it is not refused. -/
theorem markNode_done (v : Bool) (b : BootmemData) (flags : ℕ) {pos max : ℕ}
    (hpos : b.nodeMinPfn ≤ pos) (hle : pos ≤ max) (hmax : max ≤ b.nodeLowPfn)
    (hfree : ¬(v = true ∧ Busy b pos max)) :
    (markBootmemNode b pos max v flags).1 = 0 ∧
      Marked v pos max b (markBootmemNode b pos max v flags).2 := by
  cases v with
  | false => exact markBootmemNode_free b flags hpos hle hmax
  | true => exact markBootmemNode_clear b flags hpos hle hmax fun h => hfree ⟨rfl, h⟩

/-- A node the walk passes has no page from the position on. -/
theorem passed_below {b : BootmemData} {ahead : List BootmemData} {pos : ℕ}
    (hs : Sorted (b :: ahead)) (hcov : Covered (b :: ahead) pos)
    (hskip : pos < b.nodeMinPfn ∨ pos ≥ b.nodeLowPfn) : b.nodeLowPfn ≤ pos := by
  rcases hskip with hlt | hge
  · obtain ⟨c, hc, hown⟩ := hcov
    have hle : b.nodeMinPfn ≤ c.nodeMinPfn := by
      rcases List.mem_cons.mp hc with rfl | hin
      · exact le_rfl
      · exact List.rel_of_pairwise_cons hs.order hin
    have hmin := hown.1
    omega
  · exact hge

/-- A covered page that the first node lacks is covered by the others. -/
theorem Covered.tail {b : BootmemData} {ahead : List BootmemData} {p : ℕ}
    (h : Covered (b :: ahead) p) (hp : ¬Owns b p) : Covered ahead p := by
  obtain ⟨c, hc, hown⟩ := h
  rcases List.mem_cons.mp hc with rfl | hin
  · exact absurd hown hp
  · exact ⟨c, hin, hown⟩

/-- The busy pages of a list are those of its head and of its tail. -/
theorem anyBusy_cons {b : BootmemData} {ahead : List BootmemData} {s f : ℕ} :
    AnyBusy (b :: ahead) s f ↔ Busy b s f ∨ AnyBusy ahead s f := by
  simp [AnyBusy]

/-- Only the pages below the node's end can be busy in it. -/
theorem busy_min {b : BootmemData} {s f : ℕ} : Busy b s (min b.nodeLowPfn f) ↔ Busy b s f := by
  constructor
  · intro h
    obtain ⟨p, hp, hlt, hown, hb⟩ := h
    exact ⟨p, hp, by omega, hown, hb⟩
  · intro h
    obtain ⟨p, hp, hlt, hown, hb⟩ := h
    have hlow := hown.2
    exact ⟨p, hp, by omega, hown, hb⟩

/-- Behind a node the busy pages lie behind its end. -/
theorem anyBusy_ahead {b : BootmemData} {ahead : List BootmemData} {s f : ℕ}
    (hs : Sorted (b :: ahead)) (hmin : b.nodeMinPfn ≤ s) (hlow : s ≤ b.nodeLowPfn) :
    AnyBusy ahead b.nodeLowPfn f ↔ AnyBusy ahead s f := by
  constructor
  · intro h
    obtain ⟨c, hc, p, hp, hlt, hb⟩ := h
    exact ⟨c, hc, p, by omega, hlt, hb⟩
  · intro h
    obtain ⟨c, hc, p, hp, hlt, hown, hb⟩ := h
    have hnot : ¬Owns b p := fun h => List.rel_of_pairwise_cons hs.apart hc p h hown
    have hge : b.nodeLowPfn ≤ p := by
      by_contra hcon
      exact hnot ⟨by omega, by omega⟩
    exact ⟨c, hc, p, hge, hlt, hown, hb⟩

/-- Busy pages make the range nonempty. -/
theorem AnyBusy.lt {nodes : List BootmemData} {s f : ℕ} (h : AnyBusy nodes s f) : s < f := by
  obtain ⟨_, _, p, hp, hlt, _⟩ := h
  omega

/-- A node below the position is not busy. -/
theorem not_busy_below {b : BootmemData} {s f : ℕ} (h : b.nodeLowPfn ≤ s) : ¬Busy b s f := by
  intro hb
  obtain ⟨p, hp, _, hown, _⟩ := hb
  have := hown.2
  omega

/-- The nodes behind a sorted head. -/
theorem Sorted.tail {b : BootmemData} {ahead : List BootmemData} (h : Sorted (b :: ahead)) :
    Sorted ahead := ⟨h.order.of_cons, h.apart.of_cons⟩

/-- Markings of the later nodes may start anywhere in the pages of the first. -/
theorem markedAhead {v : Bool} {b : BootmemData} {ahead after : List BootmemData} {s s' f : ℕ}
    (hs : Sorted (b :: ahead)) (hgap : ∀ p, s' ≤ p → p < s → Owns b p) (hle : s' ≤ s)
    (h : List.Forall₂ (Marked v s f) ahead after) : List.Forall₂ (Marked v s' f) ahead after := by
  have hapart : ∀ a ∈ ahead, Apart b a := fun a ha => List.rel_of_pairwise_cons hs.apart ha
  clear hs
  induction h with
  | nil => exact .nil
  | cons hab _ ih =>
    have hiff : Marked v s' f _ _ := hab.congr fun p hown => by
      have hnot : ¬(s' ≤ p ∧ p < s) := fun hp =>
        hapart _ List.mem_cons_self p (hgap p hp.1 hp.2) hown
      omega
    exact .cons hiff (ih fun a ha => hapart a (List.mem_cons_of_mem _ ha))

/-- A walk that is not refused marks exactly the range in all nodes. -/
theorem markLoop_done (v : Bool) (flags : ℕ) (undo : List BootmemData → ℕ → List BootmemData)
    {fin : ℕ} (ahead passed : List BootmemData) (pos : ℕ) (hs : Sorted ahead)
    (hpos : Covered ahead pos) (hcov : ∀ p, pos ≤ p → p < fin → Covered ahead p) (hle : pos ≤ fin)
    (hfree : ¬Refused v ahead pos fin) :
    ∃ after, markLoop undo fin v flags passed ahead pos = (some 0, passed ++ after) ∧
      List.Forall₂ (Marked v pos fin) ahead after := by
  induction ahead generalizing passed pos with
  | nil =>
    obtain ⟨b, hb, _⟩ := hpos
    cases hb
  | cons b ahead ih =>
    by_cases hskip : pos < b.nodeMinPfn ∨ pos ≥ b.nodeLowPfn
    · have hlow := passed_below hs hpos hskip
      have hnot : ∀ p, pos ≤ p → ¬Owns b p := fun p hp hown => by
        have := hown.2
        omega
      have hrest : ¬Refused v ahead pos fin := by
        intro h
        obtain ⟨hv, c, hc, hbusy⟩ := h
        exact hfree ⟨hv, c, List.mem_cons_of_mem _ hc, hbusy⟩
      obtain ⟨after, hrun, hmarked⟩ := ih (passed ++ [b]) pos hs.tail (hpos.tail (hnot pos le_rfl))
        (fun p hp hlt => (hcov p hp hlt).tail (hnot p hp)) hle hrest
      have hself : Marked v pos fin b b := Marked.refl fun p hown hp => hnot p hp.1 hown
      refine ⟨b :: after, ?_, .cons hself hmarked⟩
      simp [markLoop, hskip, hrun]
    · have hmin : b.nodeMinPfn ≤ pos := by omega
      have hmax : min b.nodeLowPfn fin ≤ b.nodeLowPfn := min_le_left _ _
      have hnode : ¬(v = true ∧ Busy b pos (min b.nodeLowPfn fin)) := by
        intro h
        obtain ⟨hv, p, hp, hlt, hown, hb⟩ := h
        exact hfree ⟨hv, b, List.mem_cons_self, p, hp, by omega, hown, hb⟩
      obtain ⟨hret, hmark⟩ := markNode_done v b flags hmin (by omega) hmax hnode
      have hhead : Marked v pos fin b
          (markBootmemNode b pos (min b.nodeLowPfn fin) v flags).2 :=
        hmark.congr fun p hown => by
          have := hown.2
          omega
      by_cases hend : min b.nodeLowPfn fin = fin
      · have hrest : List.Forall₂ (Marked v pos fin) ahead ahead := by
          rw [List.forall₂_same]
          intro c hc
          apply Marked.refl
          intro p hown hp
          have hb : Owns b p := ⟨by omega, by omega⟩
          exact List.rel_of_pairwise_cons hs.apart hc p hb hown
        refine ⟨_, ?_, .cons hhead hrest⟩
        rw [hend] at hret
        simp [markLoop, hskip, hret, hend]
      · have hlow : min b.nodeLowPfn fin = b.nodeLowPfn := by omega
        have hnot : ∀ p, b.nodeLowPfn ≤ p → ¬Owns b p := fun p hp hown => by
          have := hown.2
          omega
        have hcov' : ∀ p, b.nodeLowPfn ≤ p → p < fin → Covered ahead p :=
          fun p hp hlt => (hcov p (by omega) hlt).tail (hnot p hp)
        have hrest : ¬Refused v ahead b.nodeLowPfn fin := by
          intro h
          obtain ⟨hv, c, hc, p, hp, hlt, hbusy⟩ := h
          exact hfree ⟨hv, c, List.mem_cons_of_mem _ hc, p, by omega, hlt, hbusy⟩
        obtain ⟨after, hrun, hmarked⟩ := ih
          (passed ++ [(markBootmemNode b pos (min b.nodeLowPfn fin) v flags).2]) b.nodeLowPfn
          hs.tail (hcov' _ le_rfl (by omega)) hcov' (by omega) hrest
        refine ⟨_ :: after, ?_, .cons hhead (markedAhead hs (fun p hp hlt => ⟨by omega, hlt⟩)
          (by omega) hmarked)⟩
        have hne : b.nodeLowPfn ≠ fin := fun h => hend (by omega)
        rw [hlow] at hret hrun
        simp [markLoop, hskip, hlow, hret, hne, hrun]

/-- A refused walk stops at some position with the pages before it marked, and undoes them. -/
theorem markLoop_refused (undo : List BootmemData → ℕ → List BootmemData)
    {fin : ℕ} (ahead passed : List BootmemData) (pos : ℕ) (hs : Sorted ahead)
    (hpos : Covered ahead pos) (hcov : ∀ p, pos ≤ p → p < fin → Covered ahead p)
    (hbusy : AnyBusy ahead pos fin) :
    ∃ stopped after, pos ≤ stopped ∧ stopped ≤ fin ∧ ¬AnyBusy ahead pos stopped ∧
      markLoop undo fin true bootmemExclusive passed ahead pos =
        (some (-ebusy), undo (passed ++ after) stopped) ∧
      List.Forall₂ (Marked true pos stopped) ahead after := by
  induction ahead generalizing passed pos with
  | nil =>
    obtain ⟨b, hb, _⟩ := hpos
    cases hb
  | cons b ahead ih =>
    have hle := hbusy.lt
    by_cases hskip : pos < b.nodeMinPfn ∨ pos ≥ b.nodeLowPfn
    · have hlow := passed_below hs hpos hskip
      have hnot : ∀ p, pos ≤ p → ¬Owns b p := fun p hp hown => by
        have := hown.2
        omega
      have hrest : AnyBusy ahead pos fin := by
        simpa [anyBusy_cons, not_busy_below hlow] using hbusy
      obtain ⟨stopped, after, hge, hend, hclear, hrun, hmarked⟩ := ih (passed ++ [b]) pos hs.tail
        (hpos.tail (hnot pos le_rfl)) (fun p hp hlt => (hcov p hp hlt).tail (hnot p hp)) hrest
      have hself : Marked true pos stopped b b := Marked.refl fun p hown hp => hnot p hp.1 hown
      have hquiet : ¬AnyBusy (b :: ahead) pos stopped := by
        simpa [anyBusy_cons, not_busy_below hlow] using hclear
      refine ⟨stopped, b :: after, hge, hend, hquiet, ?_, .cons hself hmarked⟩
      simp [markLoop, hskip, hrun]
    · have hmin : b.nodeMinPfn ≤ pos := by omega
      have hmax : min b.nodeLowPfn fin ≤ b.nodeLowPfn := min_le_left _ _
      by_cases hhere : Busy b pos (min b.nodeLowPfn fin)
      · obtain ⟨hret, hmark⟩ := markBootmemNode_busy b hmin (by omega) hmax hhere
        have hempty : ¬AnyBusy (b :: ahead) pos pos := fun h => lt_irrefl _ h.lt
        have hrest : List.Forall₂ (Marked true pos pos) ahead ahead := by
          rw [List.forall₂_same]
          intro c _
          exact Marked.refl fun p _ hp => by omega
        refine ⟨pos, _, le_rfl, hle.le, hempty, ?_, .cons hmark hrest⟩
        have hne : (-ebusy : ℤ) ≠ 0 := by decide
        simp [markLoop, hskip, hret, hne]
      · obtain ⟨hret, hmark⟩ := markBootmemNode_clear b bootmemExclusive hmin (by omega) hmax hhere
        rw [busy_min] at hhere
        have hrest : AnyBusy ahead b.nodeLowPfn fin := by
          rw [anyBusy_ahead hs hmin (by omega)]
          simpa [anyBusy_cons, hhere] using hbusy
        have hend := hrest.lt
        have hlow : min b.nodeLowPfn fin = b.nodeLowPfn := by omega
        have hcov' : ∀ p, b.nodeLowPfn ≤ p → p < fin → Covered ahead p :=
          fun p hp hlt => (hcov p (by omega) hlt).tail fun hown => by
            have := hown.2
            omega
        obtain ⟨stopped, after, hge, hstop, hclear, hrun, hmarked⟩ := ih
          (passed ++ [(markBootmemNode b pos (min b.nodeLowPfn fin) true bootmemExclusive).2])
          b.nodeLowPfn hs.tail (hcov' _ le_rfl hend) hcov' hrest
        have hhead : Marked true pos stopped b
            (markBootmemNode b pos (min b.nodeLowPfn fin) true bootmemExclusive).2 :=
          hmark.congr fun p hown => by
            have := hown.2
            omega
        have hquiet : ¬AnyBusy (b :: ahead) pos stopped := by
          have hself : ¬Busy b pos stopped := by
            rw [← busy_min] at hhere ⊢
            rwa [hlow, ← min_eq_left hge] at hhere
          rw [anyBusy_ahead hs hmin (by omega)] at hclear
          simp [anyBusy_cons, hself, hclear]
        refine ⟨stopped, _ :: after, by omega, hstop, hquiet, ?_, .cons hhead
          (markedAhead hs (fun p hp hlt => ⟨by omega, hlt⟩) (by omega) hmarked)⟩
        have hne : b.nodeLowPfn ≠ fin := by omega
        rw [hlow] at hret hrun
        simp [markLoop, hskip, hlow, hret, hne, hrun]

/-- Linking a node adds it. -/
theorem linkBootmem_perm (b : BootmemData) (nodes : List BootmemData) :
    (linkBootmem b nodes).Perm (b :: nodes) := by
  induction nodes with
  | nil => exact .refl _
  | cons ent rest ih =>
    rw [linkBootmem]
    split
    · exact .refl _
    · exact (ih.cons ent).trans (.swap b ent rest)

/-- Linking keeps the order. -/
theorem linkBootmem_order (b : BootmemData) {nodes : List BootmemData}
    (h : nodes.Pairwise fun a b => a.nodeMinPfn ≤ b.nodeMinPfn) :
    (linkBootmem b nodes).Pairwise fun a b => a.nodeMinPfn ≤ b.nodeMinPfn := by
  induction nodes with
  | nil => simp [linkBootmem]
  | cons ent rest ih =>
    rw [linkBootmem]
    split
    case isTrue hlt =>
      refine List.pairwise_cons.mpr ⟨?_, h⟩
      intro c hc
      rcases List.mem_cons.mp hc with rfl | hin
      · omega
      · have := List.rel_of_pairwise_cons h hin
        omega
    case isFalse hge =>
      refine List.pairwise_cons.mpr ⟨?_, ih h.of_cons⟩
      intro c hc
      rcases List.mem_cons.mp ((linkBootmem_perm b rest).mem_iff.mp hc) with rfl | hin
      · omega
      · exact List.rel_of_pairwise_cons h hin

/-- The node list holds the registered nodes, in order. -/
theorem bdataList_spec (registered : List BootmemData) :
    (bdataList registered).Perm registered ∧
      (bdataList registered).Pairwise fun a b => a.nodeMinPfn ≤ b.nodeMinPfn := by
  induction registered using List.reverseRecOn with
  | nil => simp [bdataList]
  | append_singleton registered b ih =>
    have hstep : bdataList (registered ++ [b]) = linkBootmem b (bdataList registered) := by
      simp [bdataList]
    rw [hstep]
    constructor
    · exact (linkBootmem_perm b _).trans ((ih.1.cons b).trans
        (List.perm_append_singleton b registered).symm)
    · exact linkBootmem_order b ih.2

/-- Nodes that share no page are sorted once they are linked. -/
theorem bdataList_sorted {registered : List BootmemData} (h : registered.Pairwise Apart) :
    Sorted (bdataList registered) := by
  obtain ⟨hperm, horder⟩ := bdataList_spec registered
  have hsymm : ∀ a b, Apart a b → Apart b a := fun a b hab p hb ha => hab p ha hb
  exact ⟨horder, (hperm.pairwise_iff fun {a b} => hsymm a b).mpr h⟩

/-- A marked list has the pages of the list before. -/
theorem covered_marked {v : Bool} {s f : ℕ} {nodes after : List BootmemData}
    (h : List.Forall₂ (Marked v s f) nodes after) {p : ℕ} (hc : Covered nodes p) :
    Covered after p := by
  induction h with
  | nil => exact hc
  | cons hab _ ih =>
    obtain ⟨c, hin, hown⟩ := hc
    rcases List.mem_cons.mp hin with rfl | hin
    · exact ⟨_, List.mem_cons_self, (hab.owns p).mpr hown⟩
    · obtain ⟨d, hd, hdown⟩ := ih ⟨c, hin, hown⟩
      exact ⟨d, List.mem_cons_of_mem _ hd, hdown⟩

/-- Marking moves no node. -/
theorem sorted_marked {v : Bool} {s f : ℕ} {nodes after : List BootmemData}
    (h : List.Forall₂ (Marked v s f) nodes after) (hs : Sorted nodes) : Sorted after := by
  induction h with
  | nil => exact hs
  | @cons a b nodes after hab hrest ih =>
    have hback : ∀ c ∈ after, ∃ d ∈ nodes, Marked v s f d c := by
      intro c hc
      clear ih hs
      induction hrest with
      | nil => cases hc
      | cons hcd _ ih =>
        rcases List.mem_cons.mp hc with rfl | hin
        · exact ⟨_, List.mem_cons_self, hcd⟩
        · obtain ⟨d, hd, hdc⟩ := ih hin
          exact ⟨d, List.mem_cons_of_mem _ hd, hdc⟩
    have htail := ih hs.tail
    constructor
    · refine List.pairwise_cons.mpr ⟨?_, htail.order⟩
      intro c hc
      obtain ⟨d, hd, hdc⟩ := hback c hc
      rw [hab.minPfn, hdc.minPfn]
      exact List.rel_of_pairwise_cons hs.order hd
    · refine List.pairwise_cons.mpr ⟨?_, htail.apart⟩
      intro c hc p hb hp
      obtain ⟨d, hd, hdc⟩ := hback c hc
      exact List.rel_of_pairwise_cons hs.apart hd p ((hab.owns p).mp hb) ((hdc.owns p).mp hp)

/-- Marking a clear range and then freeing it restores the bitmap. -/
theorem map_restored {s f : ℕ} {a b c : BootmemData} (hset : Marked true s f a b)
    (hcleared : Marked false s f b c) (hquiet : ¬Busy a s f) :
    c.nodeBootmemMap = a.nodeBootmemMap := by
  apply ext_bit word_pos
  intro i
  rw [hcleared.bits i, hset.bits i, hset.minPfn, hset.lowPfn]
  split
  case isTrue hin =>
    by_contra hb
    have hback : a.nodeMinPfn + i - a.nodeMinPfn = i := by omega
    have hbit : reservedPage a (a.nodeMinPfn + i) = true := by
      cases hbit : bit a.nodeBootmemMap i with
      | true => rw [reservedPage, hback, hbit]
      | false => exact absurd hbit.symm hb
    exact hquiet ⟨a.nodeMinPfn + i, hin.1, hin.2.1, ⟨by omega, hin.2.2⟩, hbit⟩
  case isFalse => rfl

/-- The node after a refused reservation: its pages and its bitmap are as before. -/
structure Unchanged (a b : BootmemData) : Prop where
  /-- The first page. -/
  minPfn : b.nodeMinPfn = a.nodeMinPfn
  /-- The end. -/
  lowPfn : b.nodeLowPfn = a.nodeLowPfn
  /-- The place of the bitmap. -/
  mapAddr : b.mapAddr = a.mapAddr
  /-- The end of the last allocation. -/
  lastEndOff : b.lastEndOff = a.lastEndOff
  /-- Every word of the bitmap. -/
  bitmap : b.nodeBootmemMap = a.nodeBootmemMap

/-- Marking a clear range in a list and freeing it leaves all nodes unchanged. -/
theorem list_restored {s f : ℕ} {nodes marked after : List BootmemData}
    (hset : List.Forall₂ (Marked true s f) nodes marked)
    (hcleared : List.Forall₂ (Marked false s f) marked after) (hquiet : ¬AnyBusy nodes s f) :
    List.Forall₂ Unchanged nodes after := by
  induction hset generalizing after with
  | nil =>
    cases hcleared
    exact .nil
  | cons hab _ ih =>
    cases hcleared with
    | cons hbc hrest =>
      simp only [anyBusy_cons, not_or] at hquiet
      refine .cons ?_ (ih hrest hquiet.2)
      constructor
      · rw [hbc.minPfn, hab.minPfn]
      · rw [hbc.lowPfn, hab.lowPfn]
      · rw [hbc.mapAddr, hab.mapAddr]
      · rw [hbc.lastEndOff, hab.lastEndOff]
      · exact map_restored hab hbc hquiet.1

/-- An exclusive reservation of a range of pages of the registered nodes sets exactly the
bits of the range when all of them are clear, and is refused without a change of any bitmap
otherwise. -/
theorem markBootmem_exclusive (registered : List BootmemData) (start fin : ℕ)
    (hapart : registered.Pairwise Apart) (hle : start ≤ fin) (hstart : Covered registered start)
    (hcov : ∀ p, start ≤ p → p < fin → Covered registered p) :
    (¬AnyBusy registered start fin →
        (markBootmem (bdataList registered) start fin true bootmemExclusive).1 = some 0 ∧
        List.Forall₂ (Marked true start fin) (bdataList registered)
          (markBootmem (bdataList registered) start fin true bootmemExclusive).2) ∧
      (AnyBusy registered start fin →
        (markBootmem (bdataList registered) start fin true bootmemExclusive).1 = some (-ebusy) ∧
        List.Forall₂ Unchanged (bdataList registered)
          (markBootmem (bdataList registered) start fin true bootmemExclusive).2) := by
  have hs := bdataList_sorted hapart
  have hmem : ∀ b, b ∈ bdataList registered ↔ b ∈ registered := fun b =>
    (bdataList_spec registered).1.mem_iff
  have hpages : ∀ p, Covered (bdataList registered) p ↔ Covered registered p := by
    simp [Covered, hmem]
  have hbusy : AnyBusy (bdataList registered) start fin ↔ AnyBusy registered start fin := by
    simp [AnyBusy, hmem]
  simp only [← hpages] at hstart hcov
  rw [← hbusy]
  constructor
  · intro hclear
    obtain ⟨after, hrun, hmarked⟩ := markLoop_done true bootmemExclusive (unmark start)
      (bdataList registered) [] start hs hstart hcov hle fun h => hclear h.2
    rw [markBootmem, hrun]
    exact ⟨rfl, hmarked⟩
  · intro hconflict
    obtain ⟨stopped, marked, hge, hend, hquiet, hrun, hset⟩ := markLoop_refused (unmark start)
      (bdataList registered) [] start hs hstart hcov hconflict
    obtain ⟨after, hfree, hcleared⟩ := markLoop_done false 0 (fun ns _ => ns) marked [] start
      (sorted_marked hset hs) (covered_marked hset hstart)
      (fun p hp hlt => covered_marked hset (hcov p hp (by omega))) hge fun h => by simp [Refused] at h
    have hundo : unmark start marked stopped = after := by
      rw [unmark, hfree, List.nil_append]
    rw [markBootmem, hrun, List.nil_append, hundo]
    exact ⟨rfl, list_restored hset hcleared hquiet⟩

/-- A small frame number is one of the memory. -/
theorem small_le_maxPfn (n : Fin 256) : n.val ≤ maxPfn := by
  have hmax : maxPfn = 1048576 := by decide
  omega

/-- A node with pages below 256 and only page `busy` reserved. -/
def sampleNode (first fin : Fin 256) (busy : ℕ) : BootmemData where
  nodeMinPfn := first
  nodeLowPfn := fin
  mapAddr := 0xC0004000
  nodeBootmemMap := setBit (fun _ => 0#32) (busy - first)
  lastEndOff := 0
  hintIdx := 0
  lowPfn_le := small_le_maxPfn fin
  minPfn_le := small_le_maxPfn first

/-- Two nodes that meet at page 48, linked in descending order; the range crosses into the
second and meets its reserved page 90 in the middle of a word. -/
theorem markBootmem_exclusive_conflict :
    (markBootmem (bdataList [sampleNode 48 100 90, sampleNode 16 48 16]) 20 95 true
        bootmemExclusive).1 = some (-ebusy) ∧
      List.Forall₂ Unchanged (bdataList [sampleNode 48 100 90, sampleNode 16 48 16])
        (markBootmem (bdataList [sampleNode 48 100 90, sampleNode 16 48 16]) 20 95 true
          bootmemExclusive).2 := by
  have hupper : ∀ p, Owns (sampleNode 48 100 90) p ↔ 48 ≤ p ∧ p < 100 := fun p => Iff.rfl
  have hlower : ∀ p, Owns (sampleNode 16 48 16) p ↔ 16 ≤ p ∧ p < 48 := fun p => Iff.rfl
  have hapart : [sampleNode 48 100 90, sampleNode 16 48 16].Pairwise Apart := by
    simp only [List.pairwise_cons, List.mem_singleton, forall_eq, Apart, hupper, hlower,
      List.not_mem_nil, false_imp_iff, implies_true, List.Pairwise.nil, and_true]
    omega
  have hcov : ∀ p, 20 ≤ p → p < 95 → Covered [sampleNode 48 100 90, sampleNode 16 48 16] p := by
    intro p hp hlt
    simp only [Covered, List.mem_cons, List.not_mem_nil, or_false, exists_eq_or_imp,
      exists_eq_left, hupper, hlower]
    omega
  have hbit : reservedPage (sampleNode 48 100 90) 90 = true := by decide
  have hbusy : AnyBusy [sampleNode 48 100 90, sampleNode 16 48 16] 20 95 :=
    ⟨_, List.mem_cons_self, 90, by decide, by decide, (hupper 90).mpr (by decide), hbit⟩
  exact (markBootmem_exclusive _ 20 95 hapart (by decide) (hcov 20 (by decide) (by decide))
    hcov).2 hbusy

end BiscuitOS.BootmemReserve
