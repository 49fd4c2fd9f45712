import BiscuitOS.BootmemReserve

/-!
# The search for a free block

What `find_next_zero_bit` answers, what `align_idx` makes of it, and what one
round of `alloc_bootmem_core` decides. Entered behind the first place of a full
word, the finder answers too far, and its -1 may be rounded up to index 0: the
search overlooks a run or goes round for ever. A condition on the bitmap, the
goal and the hint keeps it from both.
-/

namespace BiscuitOS.BootmemSearch

open MachineWord WordBitmap LoopRun BootmemModel BootmemReserve

/-- The first clear bit at or behind index `o`. -/
structure FirstClear (map : Bitmap) (o k : ℕ) : Prop where
  /-- It is not before `o`. -/
  le : o ≤ k
  /-- It is clear. -/
  clear : bit map k = false
  /-- The bits before it are set. -/
  set : ∀ j, o ≤ j → j < k → bit map j = true

/-- All bits of the range are set. -/
def Full (map : Bitmap) (o fin : ℕ) : Prop := ∀ j, o ≤ j → j < fin → bit map j = true

/-- One place of the shifted word is clear. -/
theorem shifted_eq_zero_iff (mask : BitVec 32) (j : ℕ) :
    mask >>> j &&& 1#32 = 0#32 ↔ mask.getLsbD j = false := by
  constructor
  · intro h
    have hb : (mask >>> j &&& 1#32).getLsbD 0 = false := by simp [h]
    simpa using hb
  · intro h
    apply BitVec.eq_of_getLsbD_eq
    intro i hi
    by_cases hz : i = 0
    · simp [hz, h]
    · simp [hz]

/-- The scan of one word gives its first clear place. -/
theorem zeroInWord_spec (mask : BitVec 32) (j left : ℕ) :
    (∃ i, zeroInWord mask j left = some i ∧ j ≤ i ∧ i < j + left ∧ mask.getLsbD i = false ∧
        ∀ k, j ≤ k → k < i → mask.getLsbD k = true) ∨
      (zeroInWord mask j left = none ∧ ∀ k, j ≤ k → k < j + left → mask.getLsbD k = true) := by
  induction left generalizing j with
  | zero => exact .inr ⟨rfl, fun k hk hlt => by omega⟩
  | succ left ih =>
    by_cases hz : mask >>> j &&& 1#32 = 0#32
    · have hbit := (shifted_eq_zero_iff mask j).mp hz
      exact .inl ⟨j, by simp [zeroInWord, hz], le_rfl, by omega, hbit, fun k hk hlt => by omega⟩
    · have hset : mask.getLsbD j = true := by
        simpa using (shifted_eq_zero_iff mask j).not.mp hz
      have hextend : ∀ i, (∀ k, j + 1 ≤ k → k < i → mask.getLsbD k = true) →
          ∀ k, j ≤ k → k < i → mask.getLsbD k = true := by
        intro i h k hk hlt
        by_cases he : k = j
        · rw [he, hset]
        · exact h k (by omega) hlt
      rcases ih (j + 1) with ⟨i, hrun, hle, hlt, hbit, hbefore⟩ | ⟨hrun, hall⟩
      · exact .inl ⟨i, by simp [zeroInWord, hz, hrun], by omega, by omega, hbit, hextend i hbefore⟩
      · refine .inr ⟨by simp [zeroInWord, hz, hrun], ?_⟩
        exact hextend (j + (left + 1)) fun k hk hlt => hall k hk (by omega)

/-- A place of a word entered at place `off`, as a bit of the map. -/
theorem getLsbD_word (map : Bitmap) (n off j : ℕ) (h : off + j < 32) :
    (map n >>> off).getLsbD j = bit map (n * 32 + off + j) := by
  have hdiv : (n * 32 + off + j) / 32 = n := by omega
  have hmod : (n * 32 + off + j) % 32 = off + j := by omega
  simp only [BitVec.getLsbD_ushiftRight, bit, hdiv, hmod]

/-- The scan of the word `n` entered at place `off`. -/
theorem scan_word (map : Bitmap) (n : ℕ) {off : ℕ} (hoff : off < 32) :
    (∃ j, zeroInWord (map n >>> off) 0 (32 - off) = some j ∧ off + j < 32 ∧
        FirstClear map (n * 32 + off) (n * 32 + off + j)) ∨
      (zeroInWord (map n >>> off) 0 (32 - off) = none ∧
        Full map (n * 32 + off) (n * 32 + 32)) := by
  have hread : ∀ j, off + j < 32 → (map n >>> off).getLsbD j = bit map (n * 32 + off + j) :=
    fun j h => getLsbD_word map n off j h
  rcases zeroInWord_spec (map n >>> off) 0 (32 - off) with ⟨j, hrun, _, hlt, hbit, hset⟩ | ⟨hrun, hall⟩
  · refine .inl ⟨j, hrun, by omega, by omega, by rw [← hread j (by omega), hbit], ?_⟩
    intro k hk hlt'
    have hsub : n * 32 + off + (k - (n * 32 + off)) = k := by omega
    rw [← hsub, ← hread _ (by omega)]
    exact hset _ (by omega) (by omega)
  · refine .inr ⟨hrun, ?_⟩
    intro k hk hlt
    have hsub : n * 32 + off + (k - (n * 32 + off)) = k := by omega
    rw [← hsub, ← hread _ (by omega)]
    exact hall _ (by omega) (by omega)

/-- Set bits before a first clear bit. -/
theorem FirstClear.extend {map : Bitmap} {o e k : ℕ} (h : FirstClear map e k) (hle : o ≤ e)
    (hfull : Full map o e) : FirstClear map o k := by
  refine ⟨hle.trans h.le, h.clear, fun j hj hlt => ?_⟩
  by_cases he : j < e
  · exact hfull j hj he
  · exact h.set j (by omega) hlt

/-- Full ranges in a row. -/
theorem Full.append {map : Bitmap} {o e fin : ℕ} (h : Full map o e) (h' : Full map e fin) :
    Full map o fin := by
  intro j hj hlt
  by_cases he : j < e
  · exact h j hj he
  · exact h' j (by omega) hlt

/-- The scan over whole words answers the place `m` of the entry too far. -/
theorem zeroFrom_later (map : Bitmap) (n m i left : ℕ) :
    (∃ k, FirstClear map ((n + i) * 32) k ∧ k < (n + i + left) * 32 ∧
        zeroFrom map n m i 0 left = ((k + m : ℕ) : ℤ)) ∨
      (Full map ((n + i) * 32) ((n + i + left) * 32) ∧ zeroFrom map n m i 0 left = -1) := by
  induction left generalizing i with
  | zero => exact .inr ⟨fun j hj hlt => by omega, rfl⟩
  | succ left ih =>
    rcases scan_word map (n + i) (show 0 < 32 by decide) with ⟨j, hrun, hlt, hfirst⟩ | ⟨hrun, hfull⟩
    · refine .inl ⟨(n + i) * 32 + 0 + j, by simpa using hfirst, by omega, ?_⟩
      simp only [zeroFrom, hrun]
      push_cast
      ring
    · have hnext : (n + (i + 1)) * 32 = (n + i) * 32 + 32 := by ring
      have hend : (n + (i + 1) + left) * 32 = (n + i + (left + 1)) * 32 := by ring
      have hword : Full map ((n + i) * 32) ((n + (i + 1)) * 32) := by
        rw [hnext]
        simpa using hfull
      have hstep : zeroFrom map n m i 0 (left + 1) = zeroFrom map n m (i + 1) 0 left := by
        simp only [zeroFrom, hrun]
      rw [hstep, ← hend]
      rcases ih (i + 1) with ⟨k, hfirst, hlt, hres⟩ | ⟨hrest, hres⟩
      · exact .inl ⟨k, hfirst.extend (by omega) hword, hlt, hres⟩
      · exact .inr ⟨hword.append hrest, hres⟩

/-- The index behind the words that `find_next_zero_bit` scans. -/
def scanEnd (size o : ℕ) : ℕ := (o / 32 + size / 32 + 1) * 32

/-- `find_next_zero_bit` gives the first clear bit of the scanned words when that lies in the
word entered, an index `o % 32` too large when it lies behind, and -1 when there is none. -/
theorem findNextZeroBit_spec (map : Bitmap) (size o : ℕ) :
    (∃ k, FirstClear map o k ∧ k < scanEnd size o ∧
        findNextZeroBit map size o = ((if k / 32 = o / 32 then k else k + o % 32 : ℕ) : ℤ)) ∨
      (Full map o (scanEnd size o) ∧ findNextZeroBit map size o = -1) := by
  have hmod : o % 32 < 32 := Nat.mod_lt o (by decide)
  have hsplit : o / 32 * 32 + o % 32 = o := by omega
  have hscan := scan_word map (o / 32) hmod
  rw [hsplit] at hscan
  rcases hscan with ⟨j, hrun, hlt, hfirst⟩ | ⟨hrun, hfull⟩
  · have hword : (o + j) / 32 = o / 32 := by omega
    refine .inl ⟨o + j, hfirst, by rw [scanEnd]; omega, ?_⟩
    simp only [findNextZeroBit, zeroFrom, Nat.add_zero, hrun, hword, if_true]
    omega
  · have hstep : findNextZeroBit map size o =
        zeroFrom map (o / 32) (o % 32) 1 0 (size / 32) := by
      simp only [findNextZeroBit, zeroFrom, Nat.add_zero, hrun, Nat.zero_add]
    have hword : Full map o ((o / 32 + 1) * 32) := by
      have hend : (o / 32 + 1) * 32 = o / 32 * 32 + 32 := by ring
      rwa [hend]
    have hend : (o / 32 + 1 + size / 32) * 32 = scanEnd size o := by
      rw [scanEnd]
      ring
    have hlater := zeroFrom_later map (o / 32) (o % 32) 1 (size / 32)
    rw [hend] at hlater
    rw [hstep]
    rcases hlater with ⟨k, hfirst, hlt, hres⟩ | ⟨hrest, hres⟩
    · have hne : k / 32 ≠ o / 32 := by
        have := hfirst.le
        omega
      refine .inl ⟨k, hfirst.extend (by omega) hword, hlt, ?_⟩
      rw [if_neg hne, hres]
    · exact .inr ⟨hword.append hrest, hres⟩

/-- The step of a search is a power of two of pages. -/
theorem allocStep_two_pow {k : ℕ} (hk : k < 64) : ∃ j, j ≤ 51 ∧ allocStep (2 ^ k) = 2 ^ j := by
  by_cases h : 12 ≤ k
  · have hdiv : 2 ^ k / 4096 = 2 ^ (k - 12) := by
      have hpow : (4096 : ℕ) = 2 ^ 12 := by decide
      rw [hpow, Nat.pow_div h (by decide)]
    have hone : 1 ≤ 2 ^ (k - 12) := Nat.one_le_two_pow
    exact ⟨k - 12, by omega, by rw [allocStep, hdiv, max_eq_left hone]⟩
  · have hlt : 2 ^ k < 4096 := by
      calc 2 ^ k < 2 ^ 12 := Nat.pow_lt_pow_right (by decide) (by omega)
        _ = 4096 := by decide
    exact ⟨0, by decide, by rw [allocStep, Nat.div_eq_of_lt hlt]; decide⟩

/-- Rounding an index up so that its page frame is aligned: the least such index. -/
theorem alignIdx_spec (b : BootmemData) {idx step j : ℕ} (hj : j ≤ 51) (hstep : step = 2 ^ j)
    (hidx : idx < 2 ^ 63) :
    idx ≤ alignIdx b idx step ∧ alignIdx b idx step < idx + step ∧
      step ∣ b.nodeMinPfn + alignIdx b idx step ∧
      ∀ r, idx ≤ r → step ∣ b.nodeMinPfn + r → alignIdx b idx step ≤ r := by
  have hmax : maxPfn = 1048576 := by decide
  have hmin := b.minPfn_le
  have hpow : 2 ^ j ≤ 2 ^ 51 := Nat.pow_le_pow_right (by decide) hj
  obtain ⟨hle, hlt, hdvd⟩ := alignUp_spec (w := 64) (x := b.nodeMinPfn + idx)
    (show j < 64 by omega) (by omega)
  rw [← hstep] at hle hlt hdvd hpow
  have hsub : alignIdx b idx step =
      alignUp 64 (b.nodeMinPfn + idx) step - b.nodeMinPfn := wrapSub_of_le (by omega) (by omega)
  have hback : b.nodeMinPfn + alignIdx b idx step = alignUp 64 (b.nodeMinPfn + idx) step := by
    omega
  refine ⟨by omega, by omega, by rwa [hback], ?_⟩
  intro r hr hd
  by_contra hcon
  have hdiff : step ∣ alignUp 64 (b.nodeMinPfn + idx) step - (b.nodeMinPfn + r) :=
    Nat.dvd_sub hdvd hd
  have := Nat.le_of_dvd (by omega) hdiff
  omega

/-- The scan for a conflict gives the first set index. -/
theorem firstSet_spec (map : Bitmap) (i left : ℕ) :
    (∃ k, firstSet map i left = some k ∧ i ≤ k ∧ k < i + left ∧ bit map k = true ∧
        ∀ r, i ≤ r → r < k → bit map r = false) ∨
      (firstSet map i left = none ∧ ∀ k, i ≤ k → k < i + left → bit map k = false) := by
  induction left generalizing i with
  | zero => exact .inr ⟨rfl, fun k hk hlt => by omega⟩
  | succ left ih =>
    by_cases hb : bit map i = true
    · exact .inl ⟨i, by simp [firstSet, testBit_eq, hb], le_rfl, by omega, hb,
        fun r hr hlt => by omega⟩
    · have hf : bit map i = false := by simpa using hb
      have hextend : ∀ n, (∀ r, i + 1 ≤ r → r < n → bit map r = false) →
          ∀ r, i ≤ r → r < n → bit map r = false := by
        intro n h r hr hlt
        by_cases he : r = i
        · rw [he, hf]
        · exact h r (by omega) hlt
      rcases ih (i + 1) with ⟨k, hrun, hle, hlt, hk, hbefore⟩ | ⟨hrun, hall⟩
      · exact .inl ⟨k, by simp [firstSet, testBit_eq, hf, hrun], by omega, by omega, hk,
          hextend k hbefore⟩
      · refine .inr ⟨by simp [firstSet, testBit_eq, hf, hrun], ?_⟩
        exact hextend (i + (left + 1)) fun r hr hlt => hall r hr (by omega)

/-- An aligned run of clear bits that a search for `pages` pages from `first` on could take. -/
structure FreeRun (b : BootmemData) (first midx step pages r : ℕ) : Prop where
  /-- It starts behind the first index. -/
  le : first ≤ r
  /-- Its page frame is aligned. -/
  aligned : step ∣ b.nodeMinPfn + r
  /-- It ends in the node and below the limit. -/
  fits : r + pages ≤ midx
  /-- Its bits are clear. -/
  clear : ∀ i, r ≤ i → i < r + pages → bit b.nodeBootmemMap i = false

/-- The least aligned index behind `k`. -/
structure NextAligned (b : BootmemData) (step k e : ℕ) : Prop where
  /-- It is behind. -/
  lt : k < e
  /-- Its page frame is aligned. -/
  aligned : step ∣ b.nodeMinPfn + e
  /-- None before it is both. -/
  least : ∀ r, k < r → step ∣ b.nodeMinPfn + r → e ≤ r

/-- An aligned index `c` less than a step behind a clear bit, from which a request fits, and the
first set bit `k` of the pages asked for there. -/
structure Conflict (b : BootmemData) (first midx step pages c k : ℕ) : Prop where
  /-- The page frame of `c` is aligned. -/
  aligned : step ∣ b.nodeMinPfn + c
  /-- A clear bit is rounded up to `c`. -/
  rounded : ∃ z, first ≤ z ∧ z ≤ c ∧ c < z + step ∧ bit b.nodeBootmemMap z = false
  /-- The request fits. -/
  fits : c + pages ≤ midx
  /-- The conflict is not before `c`. -/
  le : c ≤ k
  /-- It is among the pages asked for. -/
  lt : k < c + pages
  /-- It is set. -/
  set : bit b.nodeBootmemMap k = true
  /-- The pages before it are free. -/
  clear : ∀ i, c ≤ i → i < k → bit b.nodeBootmemMap i = false

/-- An index at which a search from `first` on enters the finder as long as its answers are
right: the first, or the next aligned one behind a conflict. -/
def Entered (b : BootmemData) (first midx step pages e : ℕ) : Prop :=
  e = first ∨ ∃ c k, Conflict b first midx step pages c k ∧ NextAligned b step k e

/-- An index at which a search from `first` on may enter the finder whatever its answers are. -/
def Enterable (b : BootmemData) (first midx step e : ℕ) : Prop :=
  e = first ∨
    ∃ k, first ≤ k ∧ k < midx ∧ bit b.nodeBootmemMap k = true ∧ NextAligned b step k e

/-- Entered at `e`, the finder does not send the search back: the index passes through its
`int`, and unless a word it scans holds a clear bit, its -1 is rounded out of the node. -/
def Advances (b : BootmemData) (midx step e : ℕ) : Prop :=
  e < 2 ^ 30 ∧ (Full b.nodeBootmemMap e (scanEnd midx e) → midx ≤ alignIdx b (2 ^ 64 - 1) step)

/-- Entered at `e`, the finder answers right, or the request can be met where it answers. -/
def Answers (b : BootmemData) (first midx step pages e : ℕ) : Prop :=
  ∀ z < midx, FirstClear b.nodeBootmemMap e z → e % 32 = 0 ∨ z / 32 = e / 32 ∨
    FreeRun b first midx step pages (alignIdx b (z + e % 32) step)

/-- Up to the first free run, the finder serves a search from `first` on. -/
def Sound (b : BootmemData) (first midx step pages : ℕ) : Prop :=
  ∀ e, Entered b first midx step pages e → (∀ r, FreeRun b first midx step pages r → e ≤ r) →
    Advances b midx step e ∧ Answers b first midx step pages e

/-- The finder sends a search from `first` on back nowhere. -/
def Ends (b : BootmemData) (first midx step : ℕ) : Prop :=
  ∀ e, Enterable b first midx step e → Advances b midx step e

section Rounds

variable {b : BootmemData} {first midx step pages j e : ℕ}

/-- The two answers of the finder, aligned. -/
theorem candidate_cases (hmidx : midx ≤ 2 ^ 20) (he : e < 2 ^ 30) :
    (∃ z, FirstClear b.nodeBootmemMap e z ∧ z < 2 ^ 62 ∧ candidate b midx step e =
        alignIdx b (if z / 32 = e / 32 then z else z + e % 32) step) ∨
      (Full b.nodeBootmemMap e (scanEnd midx e) ∧
        candidate b midx step e = alignIdx b (2 ^ 64 - 1) step) := by
  have hmod : e % 32 < 32 := Nat.mod_lt e (by decide)
  rcases findNextZeroBit_spec b.nodeBootmemMap midx e with ⟨z, hfirst, hend, hres⟩ | ⟨hfull, hres⟩
  · rw [scanEnd] at hend
    have hv : (if z / 32 = e / 32 then z else z + e % 32) < 2 ^ 63 := by
      split <;> omega
    have hcast := toUnsigned_of_lt (w := 64)
      (x := ((if z / 32 = e / 32 then z else z + e % 32 : ℕ) : ℤ)) (by omega) (by omega)
    have hback : toUnsigned 64 ((if z / 32 = e / 32 then z else z + e % 32 : ℕ) : ℤ) =
        if z / 32 = e / 32 then z else z + e % 32 := by omega
    exact .inl ⟨z, hfirst, by omega, by rw [candidate, hres, hback]⟩
  · have hminus : toUnsigned 64 (-1) = 2 ^ 64 - 1 := by decide +kernel
    exact .inr ⟨hfull, by rw [candidate, hres, hminus]⟩

/-- A finder that does not send the search back answers behind its entry. -/
theorem Advances.candidate_ge (h : Advances b midx step e) (hj : j ≤ 51) (hstep : step = 2 ^ j)
    (hmidx : midx ≤ 2 ^ 20) (hlt : candidate b midx step e < midx) :
    e ≤ candidate b midx step e ∧ step ∣ b.nodeMinPfn + candidate b midx step e := by
  rcases @candidate_cases b midx step _ hmidx h.1 with ⟨z, hfirst, hz, hcand⟩ |
    ⟨hfull, hcand⟩
  · have hle := hfirst.le
    have hmod : e % 32 < 32 := Nat.mod_lt e (by decide)
    have hv : z ≤ (if z / 32 = e / 32 then z else z + e % 32) ∧
        (if z / 32 = e / 32 then z else z + e % 32) < 2 ^ 63 := by
      split <;> omega
    obtain ⟨hge, -, hdvd, -⟩ := alignIdx_spec b hj hstep hv.2
    rw [hcand]
    exact ⟨by omega, hdvd⟩
  · have := h.2 hfull
    omega

/-- Where the finder serves the search, its aligned answer starts a free run or is before none
that starts behind the entry; then it is a clear bit rounded up. -/
theorem candidate_serves (ha : Advances b midx step e) (hs : Answers b first midx step pages e)
    (hj : j ≤ 51) (hstep : step = 2 ^ j) (hmidx : midx ≤ 2 ^ 20) (hpages : 0 < pages)
    (hfirst : first ≤ e) :
    FreeRun b first midx step pages (candidate b midx step e) ∨
      ((∀ r, FreeRun b first midx step pages r → e ≤ r → candidate b midx step e ≤ r) ∧
        (candidate b midx step e < midx → ∃ z, first ≤ z ∧ z ≤ candidate b midx step e ∧
          candidate b midx step e < z + step ∧ bit b.nodeBootmemMap z = false)) := by
  rcases @candidate_cases b midx step _ hmidx ha.1 with ⟨z, hz, hlt, hcand⟩ |
    ⟨hfull, hcand⟩
  · have hle := hz.le
    have hmod : e % 32 < 32 := Nat.mod_lt e (by decide)
    have hbehind : ∀ r, FreeRun b first midx step pages r → e ≤ r → z ≤ r ∧ r < midx := by
      intro r hr her
      have hfits := hr.fits
      refine ⟨?_, by omega⟩
      by_contra hcon
      have hset := hz.set r her (by omega)
      rw [hr.clear r le_rfl (by omega)] at hset
      cases hset
    by_cases hright : e % 32 = 0 ∨ z / 32 = e / 32
    · have hexact : (if z / 32 = e / 32 then z else z + e % 32) = z := by
        split <;> omega
      rw [hexact] at hcand
      obtain ⟨hge, hclose, -, hleast⟩ := alignIdx_spec b hj hstep (show z < 2 ^ 63 by omega)
      rw [← hcand] at hge hclose hleast
      exact .inr ⟨fun r hr her => hleast r (hbehind r hr her).1 hr.aligned,
        fun _ => ⟨z, by omega, hge, hclose, hz.clear⟩⟩
    · rw [if_neg fun hword => hright (.inr hword)] at hcand
      by_cases hzm : z < midx
      · have hrun := or_assoc.mpr (hs z hzm hz)
        exact .inl (hcand ▸ hrun.resolve_left hright)
      · obtain ⟨hge, -⟩ := alignIdx_spec b hj hstep (show z + e % 32 < 2 ^ 63 by omega)
        rw [← hcand] at hge
        refine .inr ⟨fun r hr her => ?_, fun hc => by omega⟩
        have := hbehind r hr her
        omega
  · have hge := ha.2 hfull
    rw [← hcand] at hge
    refine .inr ⟨fun r hr her => ?_, fun hc => by omega⟩
    have hfits := hr.fits
    have hset := hfull r her (by rw [scanEnd]; omega)
    rw [hr.clear r le_rfl (by omega)] at hset
    cases hset

/-- The pass of a search from `first` on is at index `o`, and a pass that meets no free run
keeps the promise. -/
def Passing (b : BootmemData) (first midx step pages : ℕ) (promise : Prop) (o : ℕ) : Prop :=
  (Sound b first midx step pages ∧ ((∀ r, ¬FreeRun b first midx step pages r) → promise) ∧
      first ≤ o ∧ Entered b first midx step pages o ∧
      ∀ r, FreeRun b first midx step pages r → o ≤ r) ∨
    (Ends b first midx step ∧ promise ∧ first ≤ o ∧ Enterable b first midx step o)

variable {promise : Prop} {o : ℕ}

/-- A pass advances in each round. -/
theorem Passing.advances (h : Passing b first midx step pages promise o) :
    first ≤ o ∧ Advances b midx step o := by
  rcases h with ⟨hsound, -, hle, hentered, hbefore⟩ | ⟨hends, -, hle, henterable⟩
  · exact ⟨hle, (hsound o hentered hbefore).1⟩
  · exact ⟨hle, hends o henterable⟩

/-- A pass goes on behind a conflict. -/
theorem Passing.conflict (h : Passing b first midx step pages promise o) (hj : j ≤ 51)
    (hstep : step = 2 ^ j) (hmidx : midx ≤ 2 ^ 20) (hpages : 0 < pages) {k e : ℕ}
    (hlt : candidate b midx step o < midx) (hfit : candidate b midx step o + pages ≤ midx)
    (hk : candidate b midx step o ≤ k) (hkend : k < candidate b midx step o + pages)
    (hset : bit b.nodeBootmemMap k = true)
    (hclear : ∀ i, candidate b midx step o ≤ i → i < k → bit b.nodeBootmemMap i = false)
    (hnext : NextAligned b step k e) :
    Passing b first midx step pages promise e ∧ o < midx ∧ o < e := by
  obtain ⟨hfirst, hadvances⟩ := h.advances
  obtain ⟨hge, haligned⟩ := hadvances.candidate_ge hj hstep hmidx hlt
  have hbehind := hnext.lt
  refine ⟨?_, by omega, by omega⟩
  rcases h with ⟨hsound, hpromise, hle, hentered, hbefore⟩ | ⟨hends, hpromise, hle, henterable⟩
  · obtain ⟨-, hs⟩ := hsound o hentered hbefore
    rcases candidate_serves hadvances hs hj hstep hmidx hpages hle with hrun | ⟨hskip, hrounded⟩
    · have hfree := hrun.clear k hk hkend
      rw [hset] at hfree
      cases hfree
    · have hconflict : Conflict b first midx step pages (candidate b midx step o) k :=
        ⟨haligned, hrounded hlt, hfit, hk, hkend, hset, hclear⟩
      refine .inl ⟨hsound, hpromise, by omega, .inr ⟨_, k, hconflict, hnext⟩, ?_⟩
      intro r hr
      have hcr := hskip r hr (hbefore r hr)
      have hkr : k < r := by
        by_contra hcon
        have hfree := hr.clear k (by omega) (by omega)
        rw [hset] at hfree
        cases hfree
      exact hnext.least r hkr hr.aligned
  · exact .inr ⟨hends, hpromise, by omega, .inr ⟨k, by omega, by omega, hset, hnext⟩⟩

end Rounds

/-- The end of the search is not behind the node. -/
theorem allocMax_le (b : BootmemData) (limit : ℕ) : allocMax b limit ≤ 2 ^ 20 := by
  have hlow := b.lowPfn_le
  have hmax : maxPfn = 2 ^ 20 := rfl
  rw [hmax] at hlow
  simp only [allocMax]
  split <;> omega

/-- A request for whole pages asks for at least one. -/
theorem pfnUp_pos {size : ℕ} (hsize : 0 < size) (hround : size + 4095 < 2 ^ 64) :
    0 < pfnUp size ∧ pfnUp size ≤ 2 ^ 52 := by
  rw [pfnUp, wrap_of_lt hround]
  omega

/-- A node of the page frames from 16 to `fin` with this bitmap. -/
def nodeFrom16 (fin : Fin 256) (map : Bitmap) : BootmemData where
  nodeMinPfn := 16
  nodeLowPfn := fin.val
  mapAddr := 0xC0004000
  nodeBootmemMap := map
  lastEndOff := 0
  hintIdx := 0
  lowPfn_le := small_le_maxPfn fin
  minPfn_le := small_le_maxPfn 16

end BiscuitOS.BootmemSearch
